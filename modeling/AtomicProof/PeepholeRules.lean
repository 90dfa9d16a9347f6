/-
The rules of the peephole pass, one by one.

A rule replaces a window of atoms.  On the main stack this is an equation between compositions of
stack functions; most of the equations hold for every stack, including the ones that are too short,
and the others for the stacks that the emitted atoms leave.

Main definitions:

* `boolBytes`, `CanonicalTop` — a stack whose top is a canonical truth value;
* `Facts` — what the emitted atoms prove about the machine.

Main results:

* `canonicalTop_of_producer` — the producers of truth values leave one on top;
* `tripleRule_sound`, `duplicatePush_sound`, `tryRewritePair_sound` — **every rule does to the
  machine what its window does**.
-/

import AtomicProof.PeepholeAtoms
import Mathlib.Data.List.Induction

set_option autoImplicit false

namespace AtomicProof.Peephole

open Stack

/-! ### Canonical truth values -/

def boolBytes (b : Bool) : Bytes := serializeScriptNum (if b then 1 else 0)

theorem pushInt_ite (p : Prop) [Decidable p] (s : Stack) :
    pushInt (if p then 1 else 0) s = boolBytes (decide p) :: s := by
  by_cases h : p <;> simp [pushInt, boolBytes, h]

def CanonicalTop (s : Stack) : Prop := ∃ b rest, s = boolBytes b :: rest

/-! ### Equations between compositions of stack functions -/

section Equations

variable {f : Stack → Except String Stack} {s : Stack}

theorem kleisli_congr_left {fs gs : List _}
    (h : ∀ s', f s = .ok s' → kleisli fs s' = kleisli gs s') :
    kleisli (f :: fs) s = kleisli (f :: gs) s := by
  simp only [kleisli_cons]
  cases hf : f s with
  | error err => rfl
  | ok s' => exact h s' hf

theorem push_add (s : Stack) (k : ℤ) (hk : toInt (serializeScriptNum k) = some k)
    (e e' : String) (f : ℤ → ℤ → ℤ) (g : ℤ → ℤ) (hfg : ∀ a, f a k = g a) :
    kleisli [fun s => .ok (pushInt k s), binaryNum e f] s = kleisli [unaryNum e' g] s := by
  cases s with
  | nil => rfl
  | cons a s =>
      cases ha : toInt a <;>
        simp [kleisli, pushInt, binaryNum, unaryNum, hk, ha, hfg, bind, Except.bind, pure,
          Except.pure, Except.toOption, throw, throwThe, MonadExceptOf.throw]

theorem swap_drop (s : Stack) : kleisli [swap, drop] s = kleisli [opNip] s := by
  match s with
  | [] => rfl
  | [_] => rfl
  | _ :: _ :: _ => rfl

theorem over_over (s : Stack) : kleisli [pick 1, pick 1] s = kleisli [op2dup] s := by
  match s with
  | [] => rfl
  | [_] => rfl
  | _ :: _ :: _ => rfl

theorem zero_pick (s : Stack) :
    kleisli [fun s => .ok (pushInt 0 s), opPick] s = kleisli [dup] s := by
  cases s <;> rfl

theorem one_pick (s : Stack) :
    kleisli [fun s => .ok (pushInt 1 s), opPick] s = kleisli [pick 1] s := by
  match s with
  | [] => rfl
  | [_] => rfl
  | _ :: _ :: _ => rfl

theorem one_roll (s : Stack) :
    kleisli [fun s => .ok (pushInt 1 s), opRoll] s = kleisli [swap] s := by
  match s with
  | [] => rfl
  | [_] => rfl
  | _ :: _ :: _ => rfl

theorem two_roll (s : Stack) :
    kleisli [fun s => .ok (pushInt 2 s), opRoll] s = kleisli [opRot] s := by
  match s with
  | [] => rfl
  | [_] => rfl
  | [_, _] => rfl
  | _ :: _ :: _ :: _ => rfl

theorem drop_drop (s : Stack) : kleisli [drop, drop] s = kleisli [dropN 2] s := by
  match s with
  | [] => rfl
  | [_] => rfl
  | x :: y :: s =>
      rw [kleisli_cons (dropN 2), dropN_of_le (by simp)]
      rfl

theorem push_drop (v : Bytes) (s : Stack) :
    kleisli [fun s => .ok (v :: s), drop] s = kleisli [] s := rfl

theorem dup_drop (h : 1 ≤ s.length) : kleisli [dup, drop] s = kleisli [] s := by
  cases s with
  | nil => simp at h
  | cons x s => rfl

theorem swap_swap (h : 2 ≤ s.length) : kleisli [swap, swap] s = kleisli [] s := by
  match s with
  | [] => simp at h
  | [_] => simp at h
  | _ :: _ :: _ => rfl

theorem push_equal (u v : Bytes) (s : Stack) :
    kleisli [fun s => .ok (u :: s), fun s => .ok (v :: s), opEqual] s =
      kleisli [fun s => .ok (pushInt (if u = v then 1 else 0) s)] s := rfl

theorem push_dup_equal (v : Bytes) (s : Stack) :
    kleisli [fun s => .ok (v :: s), dup, opEqual] s =
      kleisli [fun s => .ok (pushInt 1 s)] s := by
  simp [kleisli, dup, opEqual, bind, Except.bind, pure, Except.pure, Except.toOption]

theorem push_dup_2drop (v : Bytes) (s : Stack) :
    kleisli [fun s => .ok (v :: s), dup, dropN 2] s = kleisli [] s := by
  have h : dropN 2 (v :: v :: s) = .ok s := dropN_of_le (by simp)
  simp [kleisli, dup, h, Except.toOption]

theorem one_verify (s : Stack) :
    kleisli [fun s => .ok (pushInt 1 s), opVerify] s = kleisli [] s := rfl

theorem fused_verify (f : Stack → Except String Stack) (s : Stack) :
    kleisli [f, opVerify] s = kleisli [fun s => do let s ← f s; opVerify s] s := by
  simp only [kleisli_cons, bind, Except.bind]
  cases f s <;> rfl

theorem checksig_verify (env : Env) (s : Stack) :
    kleisli [opChecksig env false, opVerify] s = kleisli [opChecksig env true] s := by
  match s with
  | [] => rfl
  | [_] => rfl
  | pubkey :: sig :: s =>
      cases hcb : env.checkSigCallback with
      | none => simp [kleisli, opChecksig, hcb, pop, bind, Except.bind, pure, Except.pure,
                  Except.toOption, opVerify, pushInt]
      | some callback =>
          cases hok : callback sig.dropLast pubkey
              ((env.transactionData.map (·.inputsHash)).getD []) <;>
            simp [kleisli, opChecksig, hcb, hok, pop, bind, Except.bind, pure, Except.pure,
              Except.toOption, opVerify, pushInt, throw, throwThe, MonadExceptOf.throw]

theorem checkmultisig_verify (s : Stack) :
    kleisli [opCheckmultisig, opVerify] s = kleisli [opCheckmultisig] s := rfl

/-! On a truth value, `OP_NOT` negates and the comparisons with a constant are its identity or its
negation. -/

theorem not_bool (b : Bool) (s : Stack) : opNot (boolBytes b :: s) = .ok (boolBytes (!b) :: s) := by
  cases b <;> rfl

theorem not_not_bool (h : CanonicalTop s) : kleisli [opNot, opNot] s = kleisli [op0notequal] s := by
  obtain ⟨b, rest, rfl⟩ := h
  cases b <;> rfl

theorem not_not_identity (h : CanonicalTop s) : kleisli [opNot, opNot] s = kleisli [] s := by
  obtain ⟨b, rest, rfl⟩ := h
  cases b <;> rfl

/-- The comparisons that decide equality of truth values. -/
def IsBoolEqual (f : Stack → Except String Stack) : Prop :=
  ∀ b c rest, f (boolBytes c :: boolBytes b :: rest) = .ok (boolBytes (b == c) :: rest)

theorem isBoolEqual_equal : IsBoolEqual opEqual := by
  intro b c rest
  cases b <;> cases c <;> rfl

theorem isBoolEqual_numequal (e : String) : IsBoolEqual (compareNum e fun a b => a == b) := by
  intro b c rest
  cases b <;> cases c <;> rfl

theorem one_equal (hf : IsBoolEqual f)
    (h : CanonicalTop s) : kleisli [fun s => .ok (pushInt 1 s), f] s = kleisli [] s := by
  obtain ⟨b, rest, rfl⟩ := h
  have hpush : pushInt 1 (boolBytes b :: rest) = boolBytes true :: boolBytes b :: rest := rfl
  simp [kleisli, hpush, hf b true rest, Except.toOption]

theorem zero_equal (hf : IsBoolEqual f)
    (h : CanonicalTop s) : kleisli [fun s => .ok (pushInt 0 s), f] s = kleisli [opNot] s := by
  obtain ⟨b, rest, rfl⟩ := h
  have hpush : pushInt 0 (boolBytes b :: rest) = boolBytes false :: boolBytes b :: rest := rfl
  simp [kleisli, hpush, hf b false rest, not_bool, Except.toOption]

theorem zero_numnotequal (e : String) (h : CanonicalTop s) :
    kleisli [fun s => .ok (pushInt 0 s), compareNum e fun a b => a != b] s = kleisli [] s := by
  obtain ⟨b, rest, rfl⟩ := h
  cases b <;> rfl

theorem one_numnotequal (e : String) (h : CanonicalTop s) :
    kleisli [fun s => .ok (pushInt 1 s), compareNum e fun a b => a != b] s =
      kleisli [opNot] s := by
  obtain ⟨b, rest, rfl⟩ := h
  cases b <;> rfl

end Equations

/-! ### Producers of truth values -/

variable {s s' : Stack} {op : BytOpcode} {f : Stack → Except String Stack} {vm' : VM}

theorem binaryNum_canonicalTop {e : String} {f : ℤ → ℤ → Bool}
    (h : compareNum e f s = .ok s') : CanonicalTop s' := by
  match s with
  | [] => simp [compareNum, binaryNum, bind, Except.bind] at h
  | [_] => simp [compareNum, binaryNum, bind, Except.bind] at h
  | b :: a :: s =>
      cases ha : toInt a <;> cases hb : toInt b <;>
        simp [compareNum, binaryNum, bind, Except.bind, ha, hb, pure, Except.pure, throw, throwThe,
          MonadExceptOf.throw, pushInt_ite] at h
      exact ⟨_, _, h.symm⟩

theorem opEqual_canonicalTop (h : opEqual s = .ok s') : CanonicalTop s' := by
  match s with
  | [] => simp [opEqual, bind, Except.bind] at h
  | [_] => simp [opEqual, bind, Except.bind] at h
  | b :: a :: s =>
      simp [opEqual, bind, Except.bind, pure, Except.pure, pushInt_ite] at h
      exact ⟨_, _, h.symm⟩

theorem opNot_canonicalTop (h : opNot s = .ok s') : CanonicalTop s' := by
  match s with
  | [] => simp [opNot, bind, Except.bind] at h
  | a :: s =>
      cases ha : toInt a with
      | none =>
          simp [opNot, bind, Except.bind, ha, pure, Except.pure] at h
          exact ⟨false, _, h.symm⟩
      | some n =>
          simp [opNot, bind, Except.bind, ha, pure, Except.pure, pushInt_ite] at h
          exact ⟨_, _, h.symm⟩

theorem op0notequal_canonicalTop (h : op0notequal s = .ok s') : CanonicalTop s' := by
  match s with
  | [] => simp [op0notequal, bind, Except.bind] at h
  | a :: s =>
      cases ha : toInt a with
      | none =>
          simp [op0notequal, bind, Except.bind, ha, pure, Except.pure] at h
          exact ⟨false, _, h.symm⟩
      | some n =>
          simp only [op0notequal, bind, Except.bind, pop_cons, ha, pure, Except.pure, pushInt_ite,
            Except.ok.injEq] at h
          exact ⟨_, _, h.symm⟩

theorem opWithin_canonicalTop (h : opWithin s = .ok s') : CanonicalTop s' := by
  match s with
  | [] => simp [opWithin, bind, Except.bind] at h
  | [_] => simp [opWithin, bind, Except.bind] at h
  | [_, _] => simp [opWithin, bind, Except.bind] at h
  | hi :: lo :: x :: s =>
      cases hx : toInt x <;> cases hlo : toInt lo <;> cases hhi : toInt hi <;>
        simp [opWithin, bind, Except.bind, hx, hlo, hhi, pure, Except.pure, throw, throwThe,
          MonadExceptOf.throw, pushInt_ite] at h
      exact ⟨_, _, h.symm⟩

theorem opChecksig_canonicalTop {env : Env} (h : opChecksig env false s = .ok s') :
    CanonicalTop s' := by
  match s with
  | [] => simp [opChecksig, bind, Except.bind] at h
  | [_] => simp [opChecksig, bind, Except.bind] at h
  | pubkey :: sig :: s =>
      simp [opChecksig, bind, Except.bind, pure, Except.pure, pushInt_ite] at h
      exact ⟨_, _, h.symm⟩

/-- **The producers of truth values leave one on top.** -/
theorem canonicalTop_of_producer (env : Env) (h : op ∈ canonicalBoolProducers) :
    ∃ f, mainOp env [] op = some f ∧ ∀ s s', f s = .ok s' → CanonicalTop s' := by
  simp only [canonicalBoolProducers, List.mem_cons, List.not_mem_nil, or_false] at h
  rcases h with rfl | rfl | rfl | rfl | rfl | rfl | rfl | rfl | rfl | rfl | rfl | rfl | rfl | rfl |
    rfl | rfl
  · exact ⟨_, rfl, fun s s' h => ⟨false, s, (Except.ok.inj h).symm⟩⟩
  · exact ⟨_, rfl, fun s s' h => ⟨true, s, (Except.ok.inj h).symm⟩⟩
  · exact ⟨_, rfl, fun s s' => opNot_canonicalTop⟩
  · exact ⟨_, rfl, fun s s' => op0notequal_canonicalTop⟩
  · exact ⟨_, rfl, fun s s' => opEqual_canonicalTop⟩
  iterate 8 exact ⟨_, rfl, fun s s' => binaryNum_canonicalTop⟩
  · exact ⟨_, rfl, fun s s' => opWithin_canonicalTop⟩
  · exact ⟨_, rfl, fun s s' => opChecksig_canonicalTop⟩
  · exact ⟨_, rfl, fun s s' h => by simp [opCheckmultisig] at h⟩

/-! ### Atoms of the rules -/

variable {env : ScriptEnv}

theorem mainAtom_of_isOp {s : String}
    (h : isOp s op = true) (hop : isOneByte op = true) (hf : mainOp env.toEnv [] op = some f) :
    MainAtom env s f :=
  mainAtom_of_mainOp (completeInstruction_of_isOp h hop) hf

theorem mainAtom_opHex (hop : isOneByte op = true) (hf : mainOp env.toEnv [] op = some f) :
    MainAtom env (opHex op) f :=
  mainAtom_of_isOp (isOp_opHex op) hop hf

/-- The atoms the pass is correct on: no push with a length field and no data. -/
def NoEmptyPushdata (s : String) : Prop :=
  ∀ instr, completeInstruction s = some instr → isEmptyPushdata instr = false

instance : DecidablePred NoEmptyPushdata := fun s =>
  decidable_of_iff ((completeInstruction s).all fun instr => !isEmptyPushdata instr) (by
    unfold NoEmptyPushdata
    cases completeInstruction s <;> simp)

theorem noEmptyPushdata_opHex (hop : isOneByte op = true) : NoEmptyPushdata (opHex op) := by
  intro instr h
  rw [completeInstruction_of_isOp (isOp_opHex op) hop, Option.some_inj] at h
  subst h
  revert hop
  cases op <;> decide

theorem pushAtom_of_decodedPushPayload (env : ScriptEnv) {s : String} {payload : List Char}
    (h : decodedPushPayload s = some payload) (hs : NoEmptyPushdata s) :
    ∃ value, PushAtom env s value ∧ payload = bytesToHex value := by
  obtain ⟨instr, value, hinstr, hvalue, hpayload⟩ := decodedPushPayload_spec h
  exact ⟨value, pushAtom_of_pushValue hinstr hvalue (hs instr hinstr), hpayload⟩

theorem mainAtom_of_producer (env : ScriptEnv) {s : String} (h : producesCanonicalBool s = true) :
    ∃ f, MainAtom env s f ∧ ∀ s s', f s = .ok s' → CanonicalTop s' := by
  simp only [producesCanonicalBool, List.any_eq_true] at h
  obtain ⟨op, hmem, hop⟩ := h
  obtain ⟨f, hf, hcanon⟩ := canonicalTop_of_producer env.toEnv hmem
  have hone : ∀ op ∈ canonicalBoolProducers, isOneByte op = true := by decide
  exact ⟨f, mainAtom_of_isOp hop (hone op hmem) hf, hcanon⟩

/-! ### Windows of three -/

section Triples

variable {a b c : String} {f : Stack → Except String Stack}

theorem mainAtom_op1 (h : isOp a .op1 = true) : MainAtom env a fun s => .ok (pushInt 1 s) :=
  mainAtom_of_isOp h rfl rfl

theorem mainAtom_op0 (h : isOp a .op0 = true) : MainAtom env a fun s => .ok (pushInt 0 s) :=
  mainAtom_of_isOp h rfl rfl

theorem mainAtom_equal (env : ScriptEnv) (h : (isOpEqual a || isOpNumEqual a) = true) :
    ∃ f, MainAtom env a f ∧ IsBoolEqual f := by
  rw [Bool.or_eq_true] at h
  rcases h with h | h
  · exact ⟨_, mainAtom_of_isOp h rfl rfl, isBoolEqual_equal⟩
  · exact ⟨_, mainAtom_of_isOp h rfl rfl, isBoolEqual_numequal _⟩

theorem forall₂_three {f g h : Stack → Except String Stack} (ha : MainAtom env a f)
    (hb : MainAtom env b g) (hc : MainAtom env c h) :
    List.Forall₂ (MainAtom env) [a, b, c] [f, g, h] :=
  .cons ha (.cons hb (.cons hc .nil))

theorem forall₂_two {f g : Stack → Except String Stack} (ha : MainAtom env a f)
    (hb : MainAtom env b g) : List.Forall₂ (MainAtom env) [a, b] [f, g] :=
  .cons ha (.cons hb .nil)

theorem forall₂_one {f : Stack → Except String Stack} (ha : MainAtom env a f) :
    List.Forall₂ (MainAtom env) [a] [f] :=
  .cons ha .nil

/-- **Every rule for three atoms does what its window does.** -/
theorem tripleRule_sound {replacements : List ReplacementInstruction}
    (h : tripleRule a b c = some replacements) (ha : NoEmptyPushdata a) (hb : NoEmptyPushdata b)
    (vm : VM) :
    final env (replacements.map (·.encoding)) vm = final env [a, b, c] vm := by
  -- an atom with a payload pushes that payload
  have hpush : ∀ {x : String}, (decodedPushPayload x).isSome = true → NoEmptyPushdata x →
      ∃ value, PushAtom env x value ∧ decodedPushPayload x = some (bytesToHex value) := by
    intro x hx hne
    obtain ⟨payload, hp⟩ := Option.isSome_iff_exists.1 hx
    obtain ⟨value, hvalue, rfl⟩ := pushAtom_of_decodedPushPayload env hp hne
    exact ⟨value, hvalue, hp⟩
  unfold tripleRule at h
  simp only [Bool.and_eq_true] at h
  generalize hop : (if decodedPushPayload a = decodedPushPayload b then BytOpcode.op1
    else BytOpcode.op0) = op at h
  split_ifs at h with h1 h2 h3 h4 h5 h6 h7 h8 h9 <;> obtain rfl := Option.some_inj.1 h
  -- two constants compared
  · obtain ⟨⟨hpa, hpb⟩, hc⟩ := h1
    obtain ⟨u, hu, hpu⟩ := hpush hpa ha
    obtain ⟨v, hv, hpv⟩ := hpush hpb hb
    have heq : decodedPushPayload a = decodedPushPayload b ↔ u = v := by
      rw [hpu, hpv, Option.some_inj]
      constructor
      · intro huv
        have := hexPairs_bytesToHex u
        rw [huv, hexPairs_bytesToHex v] at this
        exact (Option.some_inj.1 this).symm
      · rintro rfl
        rfl
    -- the comparison is decided at compile time
    have hrepl : MainAtom env (opHex op) fun s => .ok (pushInt (if u = v then 1 else 0) s) := by
      rw [← hop]
      by_cases huv : u = v
      · simp only [heq.2 huv, huv, if_true]
        exact mainAtom_op1 (isOp_opHex _)
      · simp only [heq, huv, if_false]
        exact mainAtom_op0 (isOp_opHex _)
    exact final_eq_of_kleisli (forall₂_one hrepl)
      (forall₂_three hu hv (mainAtom_of_isOp hc rfl rfl))
      (fun _ _ => (push_equal u v _).symm)
  · obtain ⟨⟨hpa, hb'⟩, hc⟩ := h2
    obtain ⟨u, hu, -⟩ := hpush hpa ha
    exact final_eq_of_kleisli (forall₂_one (mainAtom_op1 (isOp_opHex _)))
      (forall₂_three hu (mainAtom_of_isOp hb' rfl rfl) (mainAtom_of_isOp hc rfl rfl))
      (fun _ _ => (push_dup_equal u _).symm)
  · obtain ⟨⟨hpa, hb'⟩, hc⟩ := h3
    obtain ⟨u, hu, -⟩ := hpush hpa ha
    exact final_eq_of_kleisli (forall₂_one hu)
      (forall₂_three hu (mainAtom_of_isOp hb' rfl rfl) (mainAtom_of_isOp hc rfl rfl))
      (fun _ _ => rfl)
  · obtain ⟨⟨hpa, hb'⟩, hc⟩ := h4
    obtain ⟨u, hu, -⟩ := hpush hpa ha
    exact final_eq_of_kleisli .nil
      (forall₂_three hu (mainAtom_of_isOp hb' rfl rfl) (mainAtom_of_isOp hc rfl rfl))
      (fun _ _ => (push_dup_2drop u _).symm)
  -- from here on the first atom leaves a canonical truth value on top
  · obtain ⟨⟨hpa, hb'⟩, hc⟩ := h5
    obtain ⟨f, hf, hcanon⟩ := mainAtom_of_producer env hpa
    exact final_eq_of_kleisli (forall₂_one hf)
      (forall₂_three hf (mainAtom_of_isOp hb' rfl rfl) (mainAtom_of_isOp hc rfl rfl))
      (fun _ _ => kleisli_congr_left fun s' hs' => (not_not_identity (hcanon _ s' hs')).symm)
  · obtain ⟨⟨hpa, hb'⟩, hc⟩ := h6
    obtain ⟨f, hf, hcanon⟩ := mainAtom_of_producer env hpa
    obtain ⟨g, hg, hequal⟩ := mainAtom_equal env hc
    exact final_eq_of_kleisli (forall₂_one hf) (forall₂_three hf (mainAtom_op1 hb') hg)
      (fun _ _ => kleisli_congr_left fun s' hs' => (one_equal hequal (hcanon _ s' hs')).symm)
  · obtain ⟨⟨hpa, hb'⟩, hc⟩ := h7
    obtain ⟨f, hf, hcanon⟩ := mainAtom_of_producer env hpa
    obtain ⟨g, hg, hequal⟩ := mainAtom_equal env hc
    exact final_eq_of_kleisli (forall₂_two hf (mainAtom_opHex rfl rfl))
      (forall₂_three hf (mainAtom_op0 hb') hg)
      (fun _ _ => kleisli_congr_left fun s' hs' => (zero_equal hequal (hcanon _ s' hs')).symm)
  · obtain ⟨⟨hpa, hb'⟩, hc⟩ := h8
    obtain ⟨f, hf, hcanon⟩ := mainAtom_of_producer env hpa
    exact final_eq_of_kleisli (forall₂_one hf)
      (forall₂_three hf (mainAtom_op0 hb') (mainAtom_of_isOp hc rfl rfl))
      (fun _ _ => kleisli_congr_left fun s' hs' => (zero_numnotequal _ (hcanon _ s' hs')).symm)
  · obtain ⟨⟨hpa, hb'⟩, hc⟩ := h9
    obtain ⟨f, hf, hcanon⟩ := mainAtom_of_producer env hpa
    exact final_eq_of_kleisli (forall₂_two hf (mainAtom_opHex rfl rfl))
      (forall₂_three hf (mainAtom_op1 hb') (mainAtom_of_isOp hc rfl rfl))
      (fun _ _ => kleisli_congr_left fun s' hs' => (one_numnotequal _ (hcanon _ s' hs')).symm)

theorem tryRewriteTriple_sound {replacements : List ReplacementInstruction}
    (h : tryRewriteTriple a b c = some replacements) (ha : NoEmptyPushdata a)
    (hb : NoEmptyPushdata b) (vm : VM) :
    final env (replacements.map (·.encoding)) vm = final env [a, b, c] vm := by
  unfold tryRewriteTriple at h
  split at h
  · rename_i replacements' hrule
    split at h
    · obtain rfl := Option.some_inj.1 h
      exact tripleRule_sound hrule ha hb vm
    · simp at h
  · simp at h

end Triples

/-! ### The duplicate push -/

/-- The surroundings give every known placeholder data of the declared size. -/
def KnownPlaceholders (env : ScriptEnv) (options : LocalRewriteOptions) : Prop :=
  ∀ label size, options.knownDataPlaceholders label = some size →
    ∃ payload, env.placeholder label = some payload ∧ payload.length = size

/-- **The duplicate-push rule does what its window does.** -/
theorem duplicatePush_sound {a b : String} {options : LocalRewriteOptions}
    (h : isProfitableDuplicatePush a b options = true) (hknown : KnownPlaceholders env options)
    (vm : VM) : final env [a, opHex .opDup] vm = final env [a, b] vm := by
  unfold isProfitableDuplicatePush at h
  obtain rfl : a = b := by
    by_contra hab
    rw [if_pos hab] at h
    simp at h
  rw [if_neg (not_not.2 rfl)] at h
  -- both kinds of push put a fixed element on the stack
  suffices hpush : ∃ value, PushAtom env a value by
    obtain ⟨value, hvalue⟩ := hpush
    exact final_eq_of_kleisli (forall₂_two hvalue (mainAtom_opHex rfl rfl))
      (forall₂_two hvalue hvalue) (fun _ _ => rfl)
  split at h
  · rename_i decoded hdecoded
    obtain ⟨instr, hinstr, hvalue⟩ := decodePushHex_spec hdecoded
    refine ⟨_, pushAtom_of_pushValue hinstr hvalue ?_⟩
    rw [← Bool.not_eq_true]
    intro hempty
    -- no data is one byte in either encoding
    have hnil : decoded.payload = [] := by
      simp only [isEmptyPushdata, Bool.and_eq_true, decide_eq_true_eq, List.isEmpty_iff] at hempty
      simpa [pushValue, hempty.1.2, hempty.2, eq_comm] using hvalue
    have hone : ∀ policy, ScriptCodec.serializedPushSize [] policy = some 1 := by
      intro policy
      cases policy <;> rfl
    rw [hnil, hone] at h
    simp at h
  · cases hsize : knownPlaceholderPushSize a options with
    | none => simp [hsize] at h
    | some size =>
        unfold knownPlaceholderPushSize at hsize
        simp only [Option.bind_eq_bind, Option.bind_eq_some_iff] at hsize
        obtain ⟨label, hlabel, declared, hdeclared, -⟩ := hsize
        obtain ⟨payload, hpayload, -⟩ := hknown label declared hdeclared
        refine ⟨payload, mainAtom_of_placeholder
          (completeInstruction_of_placeholderLabel hlabel) ?_⟩
        simp [ScriptEnv.placeholderData, hlabel, hpayload]

/-! ### What the emitted atoms prove -/

/-- What the emitted atoms prove about a machine that executes after them. -/
def Facts (emitted : List String) (vm : VM) : Prop :=
  vm.finished = false → vm.isCurrentlyExecuting = true →
    provenStackDepth emitted ≤ vm.main.length ∧
      (emittedCanonicalBool emitted = true → CanonicalTop vm.main)

/-- What a main-stack atom leaves of the machine. -/
theorem execAtom_mainAtom {s : String} {vm : VM}
    (h : MainAtom env s f) (hexec : execAtom env s vm = .ok vm')
    (hx : vm'.isCurrentlyExecuting = true) :
    vm.isCurrentlyExecuting = true ∧ f vm.main = .ok vm'.main := by
  rw [h vm] at hexec
  split at hexec
  · rename_i hvm
    refine ⟨hvm, ?_⟩
    unfold VM.onMain at hexec
    cases hf : f vm.main with
    | error err => simp [hf, bind, Except.bind] at hexec
    | ok main =>
        simp [hf, bind, Except.bind, pure, Except.pure] at hexec
        rw [← hexec]
  · rename_i hvm
    obtain rfl := Except.ok.inj hexec
    exact absurd hx hvm

/-- One emitted atom more: the depth it proves. -/
theorem depthStep_le {s : String} {vm : VM} {depth : ℕ} (hs : NoEmptyPushdata s)
    (hexec : execAtom env s vm = .ok vm') (hx : vm'.isCurrentlyExecuting = true)
    (hdepth : vm.isCurrentlyExecuting = true → depth ≤ vm.main.length) :
    depthStep depth s ≤ vm'.main.length := by
  unfold depthStep
  split_ifs with hbarrier hpush hdup hzero hdrop hpos hswap htwo
  · exact Nat.zero_le _
  · rw [wellFormedPushSize_isSome] at hpush
    obtain ⟨payload, hpayload⟩ := Option.isSome_iff_exists.1 hpush
    obtain ⟨value, hvalue, -⟩ := pushAtom_of_decodedPushPayload env hpayload hs
    obtain ⟨hvm, hmain⟩ := execAtom_mainAtom hvalue hexec hx
    have := hdepth hvm
    rw [← Except.ok.inj hmain, List.length_cons]
    omega
  · exact Nat.zero_le _
  · obtain ⟨hvm, hmain⟩ := execAtom_mainAtom (mainAtom_of_isOp hdup rfl rfl) hexec hx
    have := hdepth hvm
    cases hstack : vm.main with
    | nil => simp [hstack, dup] at hmain
    | cons x rest =>
        rw [hstack] at hmain this
        rw [← Except.ok.inj hmain]
        simp only [List.length_cons] at this ⊢
        omega
  · obtain ⟨hvm, hmain⟩ := execAtom_mainAtom (mainAtom_of_isOp hdrop rfl rfl) hexec hx
    have := hdepth hvm
    cases hstack : vm.main with
    | nil => simp [hstack, drop] at hmain
    | cons x rest =>
        rw [hstack] at hmain this
        rw [← Except.ok.inj hmain]
        simp only [List.length_cons] at this
        omega
  · omega
  · exact Nat.zero_le _
  · obtain ⟨hvm, hmain⟩ := execAtom_mainAtom (mainAtom_of_isOp hswap rfl rfl) hexec hx
    have := hdepth hvm
    match hstack : vm.main with
    | [] => simp [hstack, swap] at hmain
    | [_] => simp [hstack, swap] at hmain
    | x :: y :: rest =>
        rw [hstack] at hmain this
        rw [← Except.ok.inj hmain]
        simpa using this
  · exact Nat.zero_le _

/-- **The facts hold after every run of the emitted atoms.** -/
theorem facts_of_final {emitted : List String} (hs : ∀ s ∈ emitted, NoEmptyPushdata s)
    {vm : VM} (h : final env emitted vm = some vm') : Facts emitted vm' := by
  induction emitted using List.reverseRecOn generalizing vm' with
  | nil =>
      intro _ _
      exact ⟨Nat.zero_le _, by simp [emittedCanonicalBool]⟩
  | append_singleton emitted s ih =>
      intro hf hx
      rw [final_append, Option.bind_eq_some_iff] at h
      obtain ⟨mid, hmid, hlast⟩ := h
      have hfmid : mid.finished = false := by
        rw [← Bool.not_eq_true]
        intro hfin
        rw [final_of_finished hfin, Option.some_inj] at hlast
        rw [← hlast, hfin] at hf
        simp at hf
      rw [final_singleton hfmid] at hlast
      have hexec : execAtom env s mid = .ok vm' := by
        cases hres : execAtom env s mid with
        | error err => simp [hres, Except.toOption] at hlast
        | ok out => simpa [hres, Except.toOption] using hlast
      have hfacts := ih (fun x hx => hs x (List.mem_append_left _ hx)) hmid hfmid
      refine ⟨?_, ?_⟩
      · rw [provenStackDepth, List.foldl_append, List.foldl_cons, List.foldl_nil]
        exact depthStep_le (hs s (by simp)) hexec hx fun hxmid => (hfacts hxmid).1
      · intro hcanon
        rw [emittedCanonicalBool, List.getLast?_append_cons] at hcanon
        obtain ⟨f, hatom, htop⟩ := mainAtom_of_producer env (by simpa using hcanon)
        exact htop _ _ (execAtom_mainAtom hatom hexec hx).2

/-! ### Windows of two -/

/-- The atoms that a rule puts in the place of its window. -/
def PairRewrite.atoms : PairRewrite → Option (List String)
  | .none => Option.none
  | .deletePair => some []
  | .replacePair replacement => some [opHex replacement]

/-- What a rule puts in the place of the window does to the machine what the window does. -/
def RuleSound (env : ScriptEnv) (cur nxt : String) (vm : VM) (rule : PairRewrite) : Prop :=
  ∀ repl ∈ rule.atoms, final env repl vm = final env [cur, nxt] vm

/-- The opcode a rule writes is an instruction by itself. -/
def WritesOneByte (rule : PairRewrite) : Prop := ∀ op, rule = .replacePair op → isOneByte op = true

section Pairs

variable {cur nxt : String} {emitted : List String} {vm : VM}

theorem ruleSound_none : RuleSound env cur nxt vm .none := by
  intro repl h
  simp [PairRewrite.atoms] at h

theorem ruleSound_delete (h : final env [] vm = final env [cur, nxt] vm) :
    RuleSound env cur nxt vm .deletePair := by
  intro repl hrepl
  obtain rfl := Option.some_inj.1 hrepl
  exact h

theorem ruleSound_replace {op : BytOpcode}
    (h : final env [opHex op] vm = final env [cur, nxt] vm) :
    RuleSound env cur nxt vm (.replacePair op) := by
  intro repl hrepl
  obtain rfl := Option.some_inj.1 hrepl
  exact h

theorem writesOneByte_none : WritesOneByte .none := by
  intro op h
  simp at h

theorem writesOneByte_delete : WritesOneByte .deletePair := by
  intro op h
  simp at h

theorem writesOneByte_replace {op : BytOpcode} (h : isOneByte op = true) :
    WritesOneByte (.replacePair op) := by
  intro op' h'
  obtain rfl := PairRewrite.replacePair.inj h'
  exact h

theorem execAtom_openIf {s : String} {op : BytOpcode} (h : isOp s op = true)
    (hop : op = .opIf ∨ op = .opNotif) (vm : VM) :
    execAtom env s vm = VM.openIf (op = .opNotif) vm := by
  have hcomplete : completeInstruction s = some ⟨op.toByte, []⟩ :=
    completeInstruction_of_isOp h (by rcases hop with rfl | rfl <;> rfl)
  rcases hop with rfl | rfl <;>
    simp only [execAtom, hcomplete, executeOpcode, BytOpcode.ofByte?_toByte, isConditional] <;>
    simp [executeKnown, mainOp_of_isConditional, isConditional, VM.opIf, VM.opNotif]

/-- **`OP_NOT` before a conditional is the other conditional**, on a truth value. -/
theorem not_openIf (negated : Bool) (hnot : isOpNot cur = true)
    (hfacts : vm.finished = false → vm.isCurrentlyExecuting = true → CanonicalTop vm.main)
    (hif : ∀ vm, execAtom env nxt vm = VM.openIf negated vm) {repl : String}
    (hrepl : ∀ vm, execAtom env repl vm = VM.openIf (!negated) vm) :
    final env [repl] vm = final env [cur, nxt] vm := by
  by_cases hf : vm.finished = true
  · rw [final_of_finished hf, final_of_finished hf]
  rw [Bool.not_eq_true] at hf
  have hatom : MainAtom env cur opNot := mainAtom_of_isOp hnot rfl rfl
  rw [final_singleton hf, final_cons hf, hatom vm, hrepl]
  by_cases hx : vm.isCurrentlyExecuting = true
  · obtain ⟨b, rest, hmain⟩ := hfacts hf hx
    have hstep : vm.onMain opNot = .ok { vm with main := boolBytes (!b) :: rest } := by
      simp [VM.onMain, hmain, not_bool, bind, Except.bind, pure, Except.pure]
    rw [if_pos hx, hstep]
    have hx' : ({ vm with main := boolBytes (!b) :: rest } : VM).isCurrentlyExecuting = true := hx
    have hf' : ({ vm with main := boolBytes (!b) :: rest } : VM).finished = false := hf
    simp only [Except.toOption, Option.bind_some, final_singleton hf', hif]
    simp only [VM.openIf, hx, hx', if_true, hmain, pop_cons, bind, Except.bind, pure, Except.pure]
    cases b <;> cases negated <;> rfl
  · rw [if_neg hx]
    simp only [Except.toOption, Option.bind_some, final_singleton hf, hif, VM.openIf, if_neg hx]

theorem fusedVerify_sound (hnxt : isOp nxt .opVerify = true) {fused : BytOpcode}
    (h : fusedVerifyOpcode cur = some fused) :
    RuleSound env cur nxt vm (.replacePair fused) := by
  have hv : MainAtom env nxt opVerify := mainAtom_of_isOp hnxt rfl rfl
  unfold fusedVerifyOpcode at h
  split_ifs at h with h1 h2 h3 h4 <;> obtain rfl := Option.some_inj.1 h
  · exact ruleSound_replace (final_eq_of_kleisli (forall₂_one (mainAtom_opHex rfl rfl))
      (forall₂_two (mainAtom_of_isOp h1 rfl rfl) hv) fun _ _ => (fused_verify _ _).symm)
  · exact ruleSound_replace (final_eq_of_kleisli (forall₂_one (mainAtom_opHex rfl rfl))
      (forall₂_two (mainAtom_of_isOp h2 rfl rfl) hv) fun _ _ => (fused_verify _ _).symm)
  · exact ruleSound_replace (final_eq_of_kleisli (forall₂_one (mainAtom_opHex rfl rfl))
      (forall₂_two (mainAtom_of_isOp h3 rfl rfl) hv) fun _ _ => (checksig_verify _ _).symm)
  · exact ruleSound_replace (final_eq_of_kleisli (forall₂_one (mainAtom_opHex rfl rfl))
      (forall₂_two (mainAtom_of_isOp h4 rfl rfl) hv) fun _ _ => (checkmultisig_verify _).symm)

theorem terminalRule_sound (allow : Bool) (hfacts : Facts emitted vm) :
    RuleSound env cur nxt vm (terminalRule cur nxt emitted allow) := by
  unfold terminalRule
  refine iteInduction (fun hnot => ruleSound_replace ?_) fun _ => ?_
  · simp only [Bool.and_eq_true] at hnot
    obtain ⟨⟨hcur, hnxt⟩, hcanon⟩ := hnot
    have htop := fun hf hx => (hfacts hf hx).2 hcanon
    by_cases hif : isOp nxt .opIf = true
    · rw [if_pos hif]
      exact not_openIf false hcur htop (execAtom_openIf hif (.inl rfl))
        (execAtom_openIf (isOp_opHex _) (.inr rfl))
    · have hnotif : isOp nxt .opNotif = true := by simpa [hif] using hnxt
      rw [if_neg hif]
      exact not_openIf true hcur htop (execAtom_openIf hnotif (.inr rfl))
        (execAtom_openIf (isOp_opHex _) (.inl rfl))
  · refine iteInduction (fun hverify => ?_) fun _ => ruleSound_none
    refine iteInduction (fun htrue => ruleSound_delete ?_) fun _ => ?_
    · rw [Bool.and_eq_true] at htrue
      exact final_eq_of_kleisli .nil
        (forall₂_two (mainAtom_op1 htrue.2) (mainAtom_of_isOp hverify rfl rfl))
        (fun _ _ => (one_verify _).symm)
    · cases hfused : fusedVerifyOpcode cur with
      | none => exact ruleSound_none
      | some fused => exact fusedVerify_sound hverify hfused

theorem push_op_sound {k : ℤ} (hk : toInt (serializeScriptNum k) = some k)
    {op op' op'' : BytOpcode} {e e' : String} {f : ℤ → ℤ → ℤ} {g : ℤ → ℤ}
    (hcur : isOp cur op = true) (hnxt : isOp nxt op' = true)
    (hop : smallInteger op = some k) (hone : isOneByte op = true)
    (hf : mainOp env.toEnv [] op' = some (binaryNum e f)) (hone' : isOneByte op' = true)
    (hg : mainOp env.toEnv [] op'' = some (unaryNum e' g)) (hone'' : isOneByte op'' = true)
    (hfg : ∀ a, f a k = g a) : final env [opHex op''] vm = final env [cur, nxt] vm :=
  final_eq_of_kleisli (forall₂_one (mainAtom_opHex hone'' hg))
    (forall₂_two (mainAtom_of_isOp hcur hone (mainOp_of_smallInteger hop))
      (mainAtom_of_isOp hnxt hone' hf))
    (fun _ _ => (push_add _ k hk e e' f g hfg).symm)

theorem op_op_sound {op op' op'' : BytOpcode} {f f' f'' : Stack → Except String Stack}
    (hcur : isOp cur op = true) (hnxt : isOp nxt op' = true)
    (hone : isOneByte op = true) (hf : mainOp env.toEnv [] op = some f)
    (hone' : isOneByte op' = true) (hf' : mainOp env.toEnv [] op' = some f')
    (hone'' : isOneByte op'' = true) (hf'' : mainOp env.toEnv [] op'' = some f'')
    (heq : vm.finished = false → vm.isCurrentlyExecuting = true →
      kleisli [f, f'] vm.main = kleisli [f''] vm.main) :
    final env [opHex op''] vm = final env [cur, nxt] vm :=
  final_eq_of_kleisli (forall₂_one (mainAtom_opHex hone'' hf''))
    (forall₂_two (mainAtom_of_isOp hcur hone hf) (mainAtom_of_isOp hnxt hone' hf'))
    (fun hfin hx => (heq hfin hx).symm)

theorem op_op_delete {op op' : BytOpcode} {f f' : Stack → Except String Stack}
    (hcur : isOp cur op = true) (hnxt : isOp nxt op' = true)
    (hone : isOneByte op = true) (hf : mainOp env.toEnv [] op = some f)
    (hone' : isOneByte op' = true) (hf' : mainOp env.toEnv [] op' = some f')
    (heq : vm.finished = false → vm.isCurrentlyExecuting = true →
      kleisli [f, f'] vm.main = kleisli [] vm.main) :
    final env [] vm = final env [cur, nxt] vm :=
  final_eq_of_kleisli .nil
    (forall₂_two (mainAtom_of_isOp hcur hone hf) (mainAtom_of_isOp hnxt hone' hf'))
    (fun hfin hx => (heq hfin hx).symm)

theorem straightRule_sound (hcur : NoEmptyPushdata cur) (hfacts : Facts emitted vm) :
    RuleSound env cur nxt vm (straightRule cur nxt emitted) := by
  have hand : ∀ {p q : Bool}, (p && q) = true → p = true ∧ q = true := fun h => by simpa using h
  have htop := fun hcanon hf hx => (hfacts hf hx).2 hcanon
  have hdepth : ∀ {d}, hasProvenStackDepth emitted d = true → vm.finished = false →
      vm.isCurrentlyExecuting = true → d ≤ vm.main.length := fun hd hf hx =>
    Nat.le_trans (by simpa [hasProvenStackDepth] using hd) (hfacts hf hx).1
  unfold straightRule
  -- the numeric specialisations
  refine iteInduction (fun h => ruleSound_replace (push_op_sound (k := 1) rfl (hand h).1 (hand h).2
    rfl rfl rfl rfl rfl rfl fun _ => rfl)) fun _ => ?_
  refine iteInduction (fun h => ruleSound_replace (push_op_sound (k := 1) rfl (hand h).1 (hand h).2
    rfl rfl rfl rfl rfl rfl fun _ => rfl)) fun _ => ?_
  refine iteInduction (fun h => ruleSound_replace (push_op_sound (k := -1) rfl (hand h).1
    (hand h).2 rfl rfl rfl rfl rfl rfl fun _ => rfl)) fun _ => ?_
  refine iteInduction (fun h => ruleSound_replace (push_op_sound (k := -1) rfl (hand h).1
    (hand h).2 rfl rfl rfl rfl rfl rfl fun a => by simp)) fun _ => ?_
  -- stack identities that fail on the same short stacks
  refine iteInduction (fun h => ruleSound_replace (op_op_sound (hand h).1 (hand h).2
    rfl rfl rfl rfl rfl rfl fun _ _ => swap_drop _)) fun _ => ?_
  refine iteInduction (fun h => ruleSound_replace (op_op_sound (hand h).1 (hand h).2
    rfl rfl rfl rfl rfl rfl fun _ _ => over_over _)) fun _ => ?_
  refine iteInduction (fun h => ruleSound_replace (op_op_sound (hand h).1 (hand h).2
    rfl rfl rfl rfl rfl rfl fun _ _ => zero_pick _)) fun _ => ?_
  refine iteInduction (fun h => ruleSound_replace (op_op_sound (hand h).1 (hand h).2
    rfl rfl rfl rfl rfl rfl fun _ _ => one_pick _)) fun _ => ?_
  refine iteInduction (fun h => ruleSound_replace (op_op_sound (hand h).1 (hand h).2
    rfl rfl rfl rfl rfl rfl fun _ _ => one_roll _)) fun _ => ?_
  refine iteInduction (fun h => ruleSound_replace (op_op_sound (hand h).1 (hand h).2
    rfl rfl rfl rfl rfl rfl fun _ _ => two_roll _)) fun _ => ?_
  refine iteInduction (fun h => ruleSound_delete ?_) fun _ => ?_
  · have hpush := (hand h).1
    rw [wellFormedPushSize_isSome] at hpush
    obtain ⟨payload, hpayload⟩ := Option.isSome_iff_exists.1 hpush
    obtain ⟨value, hvalue, -⟩ := pushAtom_of_decodedPushPayload env hpayload hcur
    exact final_eq_of_kleisli .nil (forall₂_two hvalue (mainAtom_of_isOp (hand h).2 rfl rfl))
      (fun _ _ => (push_drop value _).symm)
  -- identities on the stacks that the emitted atoms leave
  refine iteInduction (fun h => ruleSound_delete (op_op_delete (hand (hand h).1).1
    (hand (hand h).1).2 rfl rfl rfl rfl fun hf hx => dup_drop (hdepth (hand h).2 hf hx)))
    fun _ => ?_
  refine iteInduction (fun h => ruleSound_delete (op_op_delete (hand (hand h).1).1
    (hand (hand h).1).2 rfl rfl rfl rfl fun hf hx => swap_swap (hdepth (hand h).2 hf hx)))
    fun _ => ?_
  refine iteInduction (fun h => ruleSound_replace (op_op_sound (hand (hand h).1).1
    (hand (hand h).1).2 rfl rfl rfl rfl rfl rfl fun hf hx => not_not_bool (htop (hand h).2 hf hx)))
    fun _ => ?_
  refine iteInduction (fun h => ruleSound_replace (op_op_sound (hand h).1 (hand h).2
    rfl rfl rfl rfl rfl rfl fun _ _ => drop_drop _)) fun _ => ?_
  refine iteInduction (fun h => ruleSound_replace (op_op_sound (hand (hand h).1).1
    (hand (hand h).1).2 rfl rfl rfl rfl rfl rfl fun hf hx =>
      zero_equal isBoolEqual_equal (htop (hand h).2 hf hx))) fun _ => ?_
  exact iteInduction (fun h => ruleSound_replace (op_op_sound (hand (hand h).1).1
    (hand (hand h).1).2 rfl rfl rfl rfl rfl rfl fun hf hx =>
      zero_equal (isBoolEqual_numequal _) (htop (hand h).2 hf hx))) fun _ => ruleSound_none

/-- **Every rule for two atoms does what its window does**, after the atoms emitted so far. -/
theorem tryRewritePair_sound (allow : Bool) (hcur : NoEmptyPushdata cur)
    (hfacts : Facts emitted vm) :
    RuleSound env cur nxt vm (tryRewritePair cur nxt emitted allow) := by
  have hterminal : RuleSound env cur nxt vm (terminalRule cur nxt emitted allow) :=
    terminalRule_sound allow hfacts
  unfold tryRewritePair
  split
  · exact iteInduction (fun _ => ruleSound_none) fun _ => straightRule_sound hcur hfacts
  · exact hterminal

theorem writesOneByte_terminalRule (allow : Bool) :
    WritesOneByte (terminalRule cur nxt emitted allow) := by
  unfold terminalRule
  refine iteInduction (fun _ => writesOneByte_replace ?_) fun _ => ?_
  · by_cases hif : isOp nxt .opIf = true <;> simp only [hif] <;> rfl
  · refine iteInduction (fun _ => ?_) fun _ => writesOneByte_none
    refine iteInduction (fun _ => writesOneByte_delete) fun _ => ?_
    unfold fusedVerifyOpcode
    split_ifs <;> first | exact writesOneByte_replace rfl | exact writesOneByte_none

theorem writesOneByte_straightRule : WritesOneByte (straightRule cur nxt emitted) := by
  unfold straightRule
  repeat' first
    | exact writesOneByte_replace rfl
    | exact writesOneByte_delete
    | exact writesOneByte_none
    | refine iteInduction (fun _ => ?_) fun _ => ?_

theorem writesOneByte_tryRewritePair (allow : Bool) :
    WritesOneByte (tryRewritePair cur nxt emitted allow) := by
  have hterminal : WritesOneByte (terminalRule cur nxt emitted allow) :=
    writesOneByte_terminalRule allow
  unfold tryRewritePair
  split
  · exact iteInduction (fun _ => writesOneByte_none) fun _ => writesOneByte_straightRule
  · exact hterminal

end Pairs

end AtomicProof.Peephole
