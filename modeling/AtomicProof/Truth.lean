/-
Truth on the two execution levels.

A condition is a byte string on the machine.  The interpreter takes it for true when some byte is
not zero (`RuntimeValue::truthy`); `OP_IF` and `OP_VERIFY` take it for true when it denotes a number
that is not zero, and a byte string of more than eight bytes denotes none.  The two notions differ
on negative zero and on long byte strings.  `OP_NOT` is a third one: a long byte string is false for
`OP_IF` and false again under `OP_NOT`.

Main definitions:

* `IsNegativeZero` — zero bytes up to a sign;
* `IfAgrees`, `VerifyAgrees`, `NotAgrees` — the two levels agree on a byte string.

Main results:

* `truthy_eq_condTrue_iff` — when the two notions of truth coincide;
* `truthAgrees_iff` — **the exact condition**.
-/

import AtomicProof.BuiltinAgreement
import AtomicProof.Environment

set_option autoImplicit false

namespace AtomicProof

open BuiltinRuntime RuntimeValue ScriptCodec

/-! ### Two notions of truth -/

/-- Zero bytes and a last byte that is nothing but a sign. -/
def IsNegativeZero (data : Bytes) : Prop :=
  data = List.replicate (data.length - 1) 0x00 ++ [0x80]

instance (data : Bytes) : Decidable (IsNegativeZero data) :=
  inferInstanceAs (Decidable (data = _))

def anyNonzero (data : Bytes) : Bool := data.any (· ≠ 0)

theorem anyNonzero_eq_false_iff {data : Bytes} :
    anyNonzero data = false ↔ data = List.replicate data.length 0x00 := by
  rw [List.eq_replicate_iff]
  simp [anyNonzero]

theorem anyNonzero_iff_leNat (data : Bytes) : anyNonzero data = true ↔ leNat data ≠ 0 := by
  induction data with
  | nil => simp [anyNonzero]
  | cons b bs ih =>
      have hb : b ≠ 0 ↔ b.toNat ≠ 0 := by
        rw [ne_eq, ne_eq, ← UInt8.toNat_inj]
        rfl
      have hcons : anyNonzero (b :: bs) = true ↔ b ≠ 0 ∨ anyNonzero bs = true := by
        simp [anyNonzero]
      rw [hcons, ih, hb, leNat_cons]
      omega

/-- A byte string of at most eight bytes denotes zero when it consists of zero bytes, and when it
is negative zero. -/
theorem toInt_eq_zero_iff {data : Bytes} (h : data.length ≤ 8) :
    toInt data = some 0 ↔ anyNonzero data = false ∨ IsNegativeZero data := by
  obtain ⟨n, hn, _, hvalue⟩ := toInt_of_length h
  rw [hn, Option.some_inj, ← Bool.not_eq_true, anyNonzero_iff_leNat, not_not]
  by_cases hsign : 128 ≤ (data.getLastD 0).toNat
  · rw [if_pos hsign] at hvalue
    have hne : data ≠ [] := by rintro rfl; simp at hsign
    have hpos := List.length_pos_iff.2 hne
    have hsplit := leNat_eq_dropLast_add hne
    have hplace : 256 ^ (data.length - 1) * 128 ≤
        256 ^ (data.length - 1) * (data.getLastD 0).toNat := Nat.mul_le_mul_left _ hsign
    have hplacePos : 0 < 256 ^ (data.length - 1) := by positivity
    have hzero : leNat data = 128 * 256 ^ (data.length - 1) ↔ IsNegativeZero data := by
      have hvalue' : leNat (List.replicate (data.length - 1) 0x00 ++ [0x80]) =
          128 * 256 ^ (data.length - 1) := by
        rw [leNat_append, leNat_replicate_zero, List.length_replicate, leNat_cons, leNat_nil]
        simp [Nat.mul_comm]
      constructor
      · intro hdata
        exact leNat_injective (by simp; omega) (hdata.trans hvalue'.symm)
      · intro hdata
        rw [← hvalue']
        exact congrArg leNat hdata
    rw [← hzero]
    omega
  · rw [if_neg hsign] at hvalue
    have hnot : ¬ IsNegativeZero data := by
      intro hzero
      rw [hzero] at hsign
      simp at hsign
    simp only [hnot, or_false]
    omega

theorem condTrue_of_length {data : Bytes} (h : data.length ≤ 8) :
    VM.condTrue data = true ↔ anyNonzero data = true ∧ ¬ IsNegativeZero data := by
  obtain ⟨n, hn, _⟩ := toInt_of_length h
  have hzero := toInt_eq_zero_iff h
  rw [hn, Option.some_inj] at hzero
  have htrue : VM.condTrue data = true ↔ n ≠ 0 := by simp [VM.condTrue, hn]
  rw [htrue, ne_eq, hzero, not_or, Bool.not_eq_false]

theorem condTrue_of_long {data : Bytes} (h : 8 < data.length) : VM.condTrue data = false := by
  rw [VM.condTrue, toInt_eq_none_of_length h]

/-- **The two notions of truth coincide on zero bytes, and on every number but negative zero.** -/
theorem truthy_eq_condTrue_iff (data : Bytes) :
    anyNonzero data = VM.condTrue data ↔
      anyNonzero data = false ∨ (data.length ≤ 8 ∧ ¬ IsNegativeZero data) := by
  by_cases h : data.length ≤ 8
  · have htrue := condTrue_of_length h
    cases hnz : anyNonzero data with
    | false =>
        rw [hnz] at htrue
        simpa using htrue
    | true =>
        rw [hnz] at htrue
        simp only [true_and] at htrue
        rw [eq_comm, htrue]
        simp [h]
  · rw [condTrue_of_long (by omega)]
    simp [h]

/-! ### Agreement on a byte string -/

def Holds (objects : RuntimeObjects) (env : Environment) (name : String) (data : Bytes) : Prop :=
  ∃ declaredType, evalIdentifier objects name env = .ok (.bytes data declaredType, env)

/-- **An if statement on the variable takes the branch that `OP_IF` opens.** -/
def IfAgrees (data : Bytes) : Prop :=
  ∀ (objects : RuntimeObjects) (env : Environment) (name : String),
    Holds objects env name data →
  ∀ (thenBranch elseBranch : Interp ControlFlow) (vm : VM), vm.isCurrentlyExecuting = true →
    ∃ cond, VM.opIf { vm with main := data :: vm.main } =
        .ok { vm with conds := cond :: vm.conds } ∧
      execIf (some (evalIdentifier objects name)) (some thenBranch) (some elseBranch) env =
        if cond then thenBranch env else elseBranch env

/-- **`Verify` succeeds when `OP_VERIFY` does.** -/
def VerifyAgrees (data : Bytes) : Prop :=
  ∀ (env : Env) (declaredType : String) (operand : Bytes) (vm : VM),
    vm.isCurrentlyExecuting = true →
    (executeOpcode env ⟨BytOpcode.opVerify.toByte, operand⟩
      { vm with main := data :: vm.main }).toOption =
      (callFunction env "Verify" [.bytes data declaredType]).toOption.map fun _ => vm

/-- **`Not` yields what `OP_NOT` leaves, or fails when it fails.** -/
def NotAgrees (data : Bytes) : Prop :=
  ∀ (env : Env) (declaredType : String) (operand : Bytes) (vm : VM),
    vm.isCurrentlyExecuting = true →
    (executeOpcode env ⟨BytOpcode.opNot.toByte, operand⟩
      { vm with main := data :: vm.main }).toOption =
      ((callFunction env "Not" [.bytes data declaredType]).toOption.bind
        fun v => v.toScriptBytes.toOption).map fun element => { vm with main := element :: vm.main }

theorem truthy_bytes (data : Bytes) (t : String) :
    (RuntimeValue.bytes data t).truthy = anyNonzero data := rfl

theorem ifAgrees_iff (data : Bytes) :
    IfAgrees data ↔ anyNonzero data = VM.condTrue data := by
  have hopen : ∀ vm : VM, vm.isCurrentlyExecuting = true →
      VM.opIf { vm with main := data :: vm.main } =
        .ok { vm with conds := VM.condTrue data :: vm.conds } := by
    intro vm hvm
    have hcurrent : ({ vm with main := data :: vm.main } : VM).isCurrentlyExecuting = true := hvm
    rw [VM.opIf, VM.openIf, if_pos hcurrent]
    simp [bind, Except.bind, pure, Except.pure]
  constructor
  · intro h
    -- the branches tell themselves apart by the way they end
    let env : Environment := [[("x", { value := .bytes data "bytes" })]]
    obtain ⟨cond, hvm, hexec⟩ := h ⟨voidValue, voidValue⟩ env "x" ⟨"bytes", by rfl⟩
      (fun env => .ok ({ kind := .ret }, env)) (fun env => .ok ({ kind := .normal }, env))
      ⟨[], [], [], false⟩ rfl
    rw [hopen _ rfl] at hvm
    have hcond : VM.condTrue data = cond := by
      simpa using hvm
    rw [execIf_of_value (show evalIdentifier _ "x" env = .ok (.bytes data "bytes", env) from rfl),
      truthy_bytes] at hexec
    rw [hcond]
    cases hnz : anyNonzero data with
    | true =>
        cases cond with
        | true => rfl
        | false => simp [hnz, execBranch] at hexec
    | false =>
        cases cond with
        | false => rfl
        | true => simp [hnz, execBranch] at hexec
  · rintro h objects env name ⟨t, hname⟩ thenBranch elseBranch vm hvm
    refine ⟨VM.condTrue data, hopen vm hvm, ?_⟩
    rw [execIf_of_value hname, truthy_bytes, h]
    cases VM.condTrue data <;> rfl

theorem verifyAgrees_iff (data : Bytes) :
    VerifyAgrees data ↔ anyNonzero data = VM.condTrue data := by
  have hmachine : ∀ s, (opVerify (data :: s)).toOption =
      if VM.condTrue data then some s else none := by
    intro s
    rw [opVerify, Stack.pop_cons, VM.condTrue]
    simp only [bind, Except.bind]
    cases toInt data with
    | none => rfl
    | some n => by_cases hn : n = 0 <;> simp [hn, Except.toOption, throw, throwThe,
        MonadExceptOf.throw, pure, Except.pure]
  have hinterp : ∀ (env : Env) (t : String),
      (callFunction env "Verify" [.bytes data t]).toOption =
        if anyNonzero data then some voidValue else none := by
    intro env t
    have hcall : callFunction env "Verify" [.bytes data t] =
        verifyTruthy "Verify" (.bytes data t) := callFunction_name env .verify _
    rw [hcall, verifyTruthy, truthy_bytes]
    cases anyNonzero data <;> rfl
  have hrun : ∀ (env : Env) (operand : Bytes) (vm : VM), vm.isCurrentlyExecuting = true →
      (executeOpcode env ⟨BytOpcode.opVerify.toByte, operand⟩
        { vm with main := data :: vm.main }).toOption =
        if VM.condTrue data then some vm else none := by
    intro env operand vm hvm
    refine (executeOpcode_main (f := opVerify) rfl { vm with main := data :: vm.main } hvm).trans ?_
    rw [hmachine]
    cases VM.condTrue data <;> rfl
  constructor
  · intro h
    have heq := h ScriptEnv.plain.toEnv "bytes" [] ⟨[], [], [], false⟩ rfl
    rw [hrun _ _ _ rfl, hinterp] at heq
    cases hnz : anyNonzero data <;> cases hc : VM.condTrue data <;> simp_all
  · intro h env t operand vm hvm
    rw [hrun env operand vm hvm, hinterp, h]
    cases VM.condTrue data <;> rfl

/-- `OP_NOT` finds a long byte string false, as `OP_IF` does. -/
theorem notAgrees_iff (data : Bytes) :
    NotAgrees data ↔
      (data.length ≤ 8 ∧ ¬ IsNegativeZero data) ∨ (8 < data.length ∧ anyNonzero data = true) := by
  have hmachine : ∀ s, (opNot (data :: s)).toOption =
      some ((if toInt data = some 0 then [0x01] else []) :: s) := by
    intro s
    rw [opNot, Stack.pop_cons]
    simp only [bind, Except.bind]
    cases toInt data with
    | none => rfl
    | some n => by_cases hn : n = 0 <;> simp [hn, Except.toOption, Stack.pushInt, pure, Except.pure]
  have hinterp : ∀ (env : Env) (t : String),
      ((callFunction env "Not" [.bytes data t]).toOption.bind fun v => v.toScriptBytes.toOption) =
        some (if anyNonzero data then [] else [0x01]) := by
    intro env t
    have hcall : callFunction env "Not" [.bytes data t] =
        .ok (fromBool (!(RuntimeValue.bytes data t).truthy)) := callFunction_name env .not _
    rw [hcall, truthy_bytes]
    cases anyNonzero data <;> rfl
  have hrun : ∀ (env : Env) (operand : Bytes) (vm : VM), vm.isCurrentlyExecuting = true →
      (executeOpcode env ⟨BytOpcode.opNot.toByte, operand⟩
        { vm with main := data :: vm.main }).toOption =
        some { vm with main := (if toInt data = some 0 then [0x01] else []) :: vm.main } := by
    intro env operand vm hvm
    refine (executeOpcode_main (f := opNot) rfl { vm with main := data :: vm.main } hvm).trans ?_
    rw [hmachine]
    rfl
  have hagrees : NotAgrees data ↔ (toInt data = some 0 ↔ anyNonzero data = false) := by
    constructor
    · intro h
      have heq := h ScriptEnv.plain.toEnv "bytes" [] ⟨[], [], [], false⟩ rfl
      rw [hrun _ _ _ rfl, hinterp] at heq
      cases hnz : anyNonzero data <;> by_cases hzero : toInt data = some 0 <;> simp_all
    · intro h env t operand vm hvm
      rw [hrun env operand vm hvm, hinterp]
      cases hnz : anyNonzero data <;> simp [h, hnz]
  rw [hagrees]
  by_cases hlen : data.length ≤ 8
  · rw [toInt_eq_zero_iff hlen]
    have hzero : IsNegativeZero data → anyNonzero data = true := by
      intro h
      rw [h]
      simp [anyNonzero]
    cases hnz : anyNonzero data with
    | true => simp [hlen]
    | false => simp_all
  · rw [toInt_eq_none_of_length (by omega)]
    simp [hlen]
    omega

/-! ### The exact condition -/

def TruthAgrees (data : Bytes) : Prop := IfAgrees data ∧ VerifyAgrees data ∧ NotAgrees data

/-- **Truth is the same on both levels exactly for the byte strings of at most eight bytes other
than negative zero.**  For a condition, zero bytes of any length do as well; for `Not`, a long byte
string with a byte that is not zero. -/
theorem truthAgrees_iff (data : Bytes) :
    (TruthAgrees data ↔ data.length ≤ 8 ∧ ¬ IsNegativeZero data) ∧
    (IfAgrees data ↔ data = List.replicate data.length 0x00 ∨
      (data.length ≤ 8 ∧ ¬ IsNegativeZero data)) ∧
    (VerifyAgrees data ↔ data = List.replicate data.length 0x00 ∨
      (data.length ≤ 8 ∧ ¬ IsNegativeZero data)) ∧
    (NotAgrees data ↔ (data.length ≤ 8 ∧ ¬ IsNegativeZero data) ∨
      (8 < data.length ∧ data ≠ List.replicate data.length 0x00)) := by
  have hzero : anyNonzero data = false ↔ data = List.replicate data.length 0x00 :=
    anyNonzero_eq_false_iff
  have hif := (ifAgrees_iff data).trans (truthy_eq_condTrue_iff data)
  have hverify := (verifyAgrees_iff data).trans (truthy_eq_condTrue_iff data)
  have hnot := notAgrees_iff data
  rw [hzero] at hif hverify
  rw [← Bool.not_eq_false, hzero] at hnot
  refine ⟨?_, hif, hverify, hnot⟩
  rw [TruthAgrees, hif, hverify, hnot]
  constructor
  · rintro ⟨h | h, _, h' | ⟨_, h'⟩⟩
    · exact h'
    · exact absurd h h'
    · exact h
    · exact h
  · intro h
    exact ⟨.inr h, .inr h, .inl h⟩

/-- Negative zero is true for the interpreter and false for the machine. -/
theorem truth_disagrees : ¬ ∀ data, TruthAgrees data := by
  intro h
  have hif := (ifAgrees_iff [0x80]).1 (h [0x80]).1
  exact absurd hif (by decide)

end AtomicProof
