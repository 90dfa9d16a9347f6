/-
Scripts that are one function of the two stacks.

A sequence of atoms that the common-tail optimiser may move is, on the machine, one function of the
two stacks: it is skipped in a branch that is not taken, and elsewhere it neither looks at the
conditions nor ends the run.  Such functions compose, and a conditional whose arms have them has
one.

Main definitions:

* `IfTail.StackEffect` — a script that is one function of the two stacks;
* `IfTail.andThen`, `IfTail.branch` — the composition of such functions, and the choice a
  conditional makes between two of them.

Main results:

* `IfTail.stackEffect_of_instruction` — the instructions other than the conditionals and
  `OP_RETURN` have stack effects;
* `IfTail.stackEffect_ifElse`, `IfTail.stackEffect_if` — **so have conditionals over such arms**;
* `IfTail.andThen_branch` — what follows a conditional may move into both arms.
-/

import AtomicProof.IfTail

set_option autoImplicit false

namespace AtomicProof.IfTail

variable {env : ScriptEnv} {options : StructuredIfTailOptions}
variable {s : String} {op : BytOpcode} {xs ys : List String}
  {g : Stack → Stack → Option (Stack × Stack)}

/-! ### The text of atoms -/

theorem hexPairs_map_toLower (cs : List Char) : hexPairs (cs.map toLower) = hexPairs cs := by
  induction cs using hexPairs.induct with
  | case1 => rfl
  | case2 c => rfl
  | case3 high low rest ih =>
      simp only [List.map_cons, hexPairs, hexDigit_toLower, ih]

/-- Pure hexadecimal text, with or without `0x`, is the text of a byte string. -/
theorem hexToBytes_of_isPureHex (h : isPureHex s = true) :
    ∃ bs, ScriptCodec.hexToBytes s = .ok bs ∧ normalizeHex s = bytesToHex bs := by
  simp only [isPureHex, Bool.and_eq_true, Bool.not_eq_true', List.isEmpty_eq_false_iff,
    beq_iff_eq, List.all_eq_true] at h
  obtain ⟨⟨hne, heven⟩, hdigits⟩ := h
  have hsome : (hexPairs (normalizeHex s)).isSome := (hexPairs_isSome_iff _).2 ⟨heven, hdigits⟩
  rw [normalizeHex, hexPairs_map_toLower, Option.isSome_iff_exists] at hsome
  obtain ⟨bs, hbs⟩ := hsome
  refine ⟨bs, ?_, map_toLower_of_hexPairs hbs⟩
  have hne' : ScriptCodec.stripHexPrefix s.toList ≠ [] := by
    intro hnil
    exact hne (by simp [normalizeHex, hnil])
  have heven' : (ScriptCodec.stripHexPrefix s.toList).length % 2 = 0 := by
    simpa [normalizeHex] using heven
  simp only [ScriptCodec.hexToBytes, hbs]
  rw [if_neg hne', if_neg (by omega)]

theorem bytesToHex_injective {bs bs' : Bytes} (h : bytesToHex bs = bytesToHex bs') : bs = bs' := by
  have := hexPairs_bytesToHex bs
  rw [h, hexPairs_bytesToHex] at this
  exact (Option.some_inj.1 this).symm

theorem hexToBytes_of_isSingleOpcode
    (h : isSingleOpcode s op = true) : ScriptCodec.hexToBytes s = .ok [op.toByte] := by
  simp only [isSingleOpcode, Bool.and_eq_true, beq_iff_eq] at h
  obtain ⟨bs, hbs, hnorm⟩ := hexToBytes_of_isPureHex h.1
  have : bs = [op.toByte] := bytesToHex_injective (by rw [← hnorm, h.2]; rfl)
  rw [hbs, this]

theorem isPureHex_of_hexToBytes {bs : Bytes}
    (h : ScriptCodec.hexToBytes s = .ok bs) : isPureHex s = true := by
  unfold ScriptCodec.hexToBytes at h
  simp only at h
  split_ifs at h with hne heven
  cases hbs : hexPairs (ScriptCodec.stripHexPrefix s.toList) with
  | none => simp [hbs] at h
  | some bs' =>
      have hsome : (hexPairs (normalizeHex s)).isSome := by
        rw [normalizeHex, hexPairs_map_toLower, hbs]
        rfl
      obtain ⟨heven, hdigits⟩ := (hexPairs_isSome_iff _).1 hsome
      have hne' : normalizeHex s ≠ [] := by
        intro hnil
        exact hne (by simpa [normalizeHex] using hnil)
      simp [isPureHex, hne', heven, List.all_eq_true.2 hdigits]

theorem isSingleOpcode_of_hexToBytes
    (h : ScriptCodec.hexToBytes s = .ok [op.toByte]) : isSingleOpcode s op = true := by
  have hpure := isPureHex_of_hexToBytes h
  obtain ⟨bs, hbs, hnorm⟩ := hexToBytes_of_isPureHex hpure
  rw [h] at hbs
  obtain rfl := Except.ok.inj hbs
  simp [isSingleOpcode, hpure, hnorm, bytesToHex]

/-! ### Conditional atoms -/

/-- The opcodes behind the conditional atoms. -/
def ControlToken.opcode : ControlToken → Option BytOpcode
  | .none => Option.none
  | .if => some .opIf
  | .notif => some .opNotif
  | .else => some .opElse
  | .endif => some .opEndif

theorem isSingleOpcode_of_controlToken
    (h : (controlToken s).opcode = some op) : isSingleOpcode s op = true := by
  unfold controlToken at h
  split_ifs at h with h1 h2 h3 h4 <;> simp only [ControlToken.opcode, Option.some_inj] at h
  · exact h ▸ h1
  · exact h ▸ h2
  · exact h ▸ h3
  · exact h ▸ h4
  · simp at h

theorem completeInstruction_of_controlToken (h : (controlToken s).opcode = some op) :
    completeInstruction s = some ⟨op.toByte, []⟩ := by
  have hbytes := hexToBytes_of_isSingleOpcode (isSingleOpcode_of_controlToken h)
  have hop : op = .opIf ∨ op = .opNotif ∨ op = .opElse ∨ op = .opEndif := by
    cases htoken : controlToken s <;> simp only [htoken, ControlToken.opcode] at h <;>
      simp_all
  rw [completeInstruction, hbytes]
  rcases hop with rfl | rfl | rfl | rfl <;> decide

/-- An instruction that is no conditional atom is not one of the conditional opcodes. -/
theorem not_isConditional_of_controlToken {operand : Bytes}
    (h : controlToken s = .none) (hinstr : completeInstruction s = some ⟨op.toByte, operand⟩) :
    isConditional op = false := by
  rw [← Bool.not_eq_true]
  intro hcond
  simp only [isConditional, Bool.or_eq_true, decide_eq_true_eq] at hcond
  have hsingle : ScriptCodec.hexToBytes s = .ok [op.toByte] := by
    unfold completeInstruction at hinstr
    cases hbytes : ScriptCodec.hexToBytes s with
    | error err => simp [hbytes] at hinstr
    | ok bs =>
        simp only [hbytes] at hinstr
        have hgt : 0x4e < op.toByte := by rcases hcond with ((rfl | rfl) | rfl) | rfl <;> decide
        rw [eq_singleton_of_exactInstruction hinstr hgt]
  have hop := isSingleOpcode_of_hexToBytes hsingle
  unfold controlToken at h
  rcases hcond with ((rfl | rfl) | rfl) | rfl <;> simp [hop] at h <;> split_ifs at h

/-! ### Scripts that are one function of the two stacks -/

/-- A script that is skipped in a branch that is not taken and is elsewhere one function of the two
stacks. -/
def StackEffect (env : ScriptEnv) (script : List String)
    (g : Stack → Stack → Option (Stack × Stack)) : Prop :=
  ∀ main alt conds, final env script ⟨main, alt, conds, false⟩ =
    if conds.all id then (g main alt).map fun p => ⟨p.1, p.2, conds, false⟩
    else some ⟨main, alt, conds, false⟩

/-- The composition of two functions of the two stacks. -/
def andThen (g h : Stack → Stack → Option (Stack × Stack)) :
    Stack → Stack → Option (Stack × Stack) :=
  fun main alt => (g main alt).bind fun p => h p.1 p.2

theorem stackEffect_nil : StackEffect env [] fun main alt => some (main, alt) := by
  intro main alt conds
  simp

theorem StackEffect.append {h : Stack → Stack → Option (Stack × Stack)}
    (hg : StackEffect env xs g) (hh : StackEffect env ys h) :
    StackEffect env (xs ++ ys) (andThen g h) := by
  intro main alt conds
  rw [final_append, hg, andThen]
  by_cases hx : conds.all id = true
  · rw [if_pos hx, if_pos hx]
    cases hres : g main alt with
    | none => rfl
    | some p => rw [Option.map_some, Option.bind_some, Option.bind_some, hh, if_pos hx]
  · rw [if_neg hx, if_neg hx, Option.bind_some, hh, if_neg hx]

theorem StackEffect.final_eq (hx : StackEffect env xs g) (hy : StackEffect env ys g) (vm : VM) :
    final env xs vm = final env ys vm := by
  obtain ⟨main, alt, conds, finished⟩ := vm
  cases finished with
  | true => rw [final_of_finished rfl, final_of_finished rfl]
  | false => rw [hx, hy]

theorem StackEffect.congr
    (hx : StackEffect env xs g) (h : ∀ vm, final env xs vm = final env ys vm) :
    StackEffect env ys g := by
  intro main alt conds
  rw [← h, hx]

theorem stackEffect_of_mainAtom {f : Stack → Except String Stack} (h : MainAtom env s f) :
    StackEffect env [s] fun main alt => (f main).toOption.map fun main => (main, alt) := by
  intro main alt conds
  rw [final_singleton rfl, h, VM.isCurrentlyExecuting_mk]
  by_cases hx : conds.all id = true
  · rw [if_pos hx, if_pos hx, VM.onMain_toOption, Option.map_map]
    rfl
  · rw [if_neg hx, if_neg hx]
    rfl

/-- An instruction other than the conditionals and `OP_RETURN` has a stack effect. -/
theorem stackEffect_of_instruction {instr : Instruction} (h : completeInstruction s = some instr)
    (hop : ∀ op, BytOpcode.ofByte? instr.opcode = some op →
      isConditional op = false ∧ op ≠ .opReturn) :
    ∃ g, StackEffect env [s] g := by
  obtain ⟨opcode, operand⟩ := instr
  cases hbyte : BytOpcode.ofByte? opcode with
  | none =>
      -- a direct push, or an opcode the machine does not know
      by_cases hle : opcode ≤ 0x4b
      · exact ⟨_, stackEffect_of_mainAtom (mainAtom_of_directPush h hbyte hle)⟩
      · refine ⟨fun _ _ => none, fun main alt conds => ?_⟩
        rw [final_singleton rfl]
        simp only [execAtom, h, executeOpcode, hbyte, hle, if_false, VM.isCurrentlyExecuting]
        cases conds.all id <;> rfl
  | some op =>
      obtain ⟨hcond, hret⟩ := hop op hbyte
      obtain rfl := BytOpcode.toByte_of_ofByte? hbyte
      cases hmain : mainOp env.toEnv operand op with
      | some f => exact ⟨_, stackEffect_of_mainAtom (mainAtom_of_mainOp h hmain)⟩
      | none =>
          rcases of_mainOp_eq_none hmain with hop | rfl | rfl | rfl
          · rw [hcond] at hop
            simp at hop
          · refine ⟨fun main alt => main.head?.map fun x => (main.tail, x :: alt),
              fun main alt conds => ?_⟩
            rw [final_singleton rfl]
            simp only [execAtom, h, executeOpcode, hbyte, hcond, Bool.not_false, Bool.and_true,
              executeKnown, hmain, VM.isCurrentlyExecuting]
            cases conds.all id <;> cases main <;> rfl
          · refine ⟨fun main alt => alt.head?.map fun x => (x :: main, alt.tail),
              fun main alt conds => ?_⟩
            rw [final_singleton rfl]
            simp only [execAtom, h, executeOpcode, hbyte, hcond, Bool.not_false, Bool.and_true,
              executeKnown, hmain, VM.isCurrentlyExecuting]
            cases conds.all id <;> cases alt <;> rfl
          · exact absurd rfl hret

/-! ### Conditionals -/

theorem execAtom_conditional (op : BytOpcode)
    (h : (controlToken s).opcode = some op) (hcond : isConditional op = true) (vm : VM) :
    execAtom env s vm = executeKnown env.toEnv [] op vm := by
  simp [execAtom, completeInstruction_of_controlToken h, executeOpcode, BytOpcode.ofByte?_toByte,
    hcond]

theorem execAtom_opener (h : controlToken s = .if ∨ controlToken s = .notif)
    (vm : VM) : execAtom env s vm = VM.openIf (controlToken s = .notif) vm := by
  rcases h with h | h
  · rw [execAtom_conditional .opIf (by rw [h]; rfl) rfl, h]
    rfl
  · rw [execAtom_conditional .opNotif (by rw [h]; rfl) rfl, h]
    rfl

theorem execAtom_else (h : controlToken s = .else) (vm : VM) : execAtom env s vm = vm.opElse := by
  rw [execAtom_conditional .opElse (by rw [h]; rfl) rfl]
  rfl

theorem execAtom_endif (h : controlToken s = .endif) (vm : VM) :
    execAtom env s vm = vm.opEndif := by
  rw [execAtom_conditional .opEndif (by rw [h]; rfl) rfl]
  rfl

/-- The effect of a conditional whose arms have the effects `ga` and `gb`. -/
def branch (negated : Bool) (ga gb : Stack → Stack → Option (Stack × Stack)) :
    Stack → Stack → Option (Stack × Stack)
  | [], _ => none
  | condition :: main, alt =>
      if VM.condTrue condition ^^ negated then ga main alt else gb main alt

theorem andThen_branch (negated : Bool) (ga gb gc : Stack → Stack → Option (Stack × Stack)) :
    andThen (branch negated ga gb) gc = branch negated (andThen ga gc) (andThen gb gc) := by
  funext main alt
  cases main with
  | nil => rfl
  | cons condition main =>
      simp only [andThen, branch]
      split <;> rfl

section Branches

variable {o m e : String} {a b : List String} {ga gb : Stack → Stack → Option (Stack × Stack)}

theorem final_else {main alt : Stack} {c : Bool} {conds : List Bool}
    (hm : controlToken m = .else) :
    final env [m] ⟨main, alt, c :: conds, false⟩ =
      some ⟨main, alt, (conds.all id && !c) :: conds, false⟩ := by
  rw [final_singleton rfl, execAtom_else hm]
  rfl

theorem final_endif {main alt : Stack} {c : Bool} {conds : List Bool}
    (he : controlToken e = .endif) :
    final env [e] ⟨main, alt, c :: conds, false⟩ = some ⟨main, alt, conds, false⟩ := by
  rw [final_singleton rfl, execAtom_endif he]
  rfl

theorem final_opener {main alt : Stack} {conds : List Bool}
    (ho : controlToken o = .if ∨ controlToken o = .notif) :
    final env [o] ⟨main, alt, conds, false⟩ =
      if conds.all id then
        match main with
        | [] => none
        | condition :: main =>
            some ⟨main, alt, (VM.condTrue condition ^^ (controlToken o = .notif)) :: conds, false⟩
      else some ⟨main, alt, false :: conds, false⟩ := by
  rw [final_singleton rfl, execAtom_opener ho, VM.openIf, VM.isCurrentlyExecuting_mk]
  cases conds.all id <;> cases main <;> rfl

/-- The rest of a conditional after its opener. -/
theorem final_arms (hm : controlToken m = .else) (he : controlToken e = .endif)
    (ha : StackEffect env a ga) (hb : StackEffect env b gb) (main alt : Stack) (c : Bool)
    (conds : List Bool) :
    final env (a ++ ([m] ++ (b ++ [e]))) ⟨main, alt, c :: conds, false⟩ =
      if conds.all id then
        ((if c then ga else gb) main alt).map fun p => ⟨p.1, p.2, conds, false⟩
      else some ⟨main, alt, conds, false⟩ := by
  cases hx : conds.all id with
  | false =>
      -- neither arm is taken
      have hskip : ∀ d : Bool, ¬ ((d :: conds).all id = true) := fun d => by simp [hx]
      rw [final_append, ha, if_neg (hskip c), Option.bind_some, final_append, final_else hm,
        Option.bind_some, final_append, hb, if_neg (hskip _), Option.bind_some, final_endif he]
      rfl
  | true =>
      cases c with
      | true =>
          have htaken : (true :: conds).all id = true := by simp [hx]
          rw [final_append, ha, if_pos htaken]
          cases hres : ga main alt with
          | none => simp [hres]
          | some p =>
              have hskip : ¬ (((conds.all id && !true) :: conds).all id = true) := by simp
              rw [Option.map_some, Option.bind_some, final_append, final_else hm,
                Option.bind_some, final_append, hb, if_neg hskip, Option.bind_some,
                final_endif he]
              simp [hres]
      | false =>
          have hskip : ¬ ((false :: conds).all id = true) := by simp
          have htaken : ((conds.all id && !false) :: conds).all id = true := by simp [hx]
          rw [final_append, ha, if_neg hskip, Option.bind_some, final_append, final_else hm,
            Option.bind_some, final_append, hb, if_pos htaken]
          cases hres : gb main alt with
          | none => simp [hres]
          | some p =>
              rw [Option.map_some, Option.bind_some, final_endif he]
              simp [hres]

/-- **A conditional with two arms that have stack effects has one.** -/
theorem stackEffect_ifElse (ho : controlToken o = .if ∨ controlToken o = .notif)
    (hm : controlToken m = .else) (he : controlToken e = .endif) (ha : StackEffect env a ga)
    (hb : StackEffect env b gb) :
    StackEffect env (o :: a ++ m :: b ++ [e]) (branch (controlToken o = .notif) ga gb) := by
  intro main alt conds
  have hlist : o :: a ++ m :: b ++ [e] = [o] ++ (a ++ ([m] ++ (b ++ [e]))) := by simp
  rw [hlist, final_append, final_opener ho]
  cases hx : conds.all id with
  | false =>
      have := final_arms hm he ha hb main alt false conds
      simpa [hx] using this
  | true =>
      cases main with
      | nil => rfl
      | cons condition main =>
          have := final_arms hm he ha hb main alt
            (VM.condTrue condition ^^ (controlToken o = .notif)) conds
          simp only [hx, if_true] at this
          simp only [if_true, Option.bind_some, this, branch]
          split <;> rfl

/-- A conditional without a second arm. -/
theorem stackEffect_if (ho : controlToken o = .if ∨ controlToken o = .notif)
    (he : controlToken e = .endif) (ha : StackEffect env a ga) :
    StackEffect env (o :: a ++ [e])
      (branch (controlToken o = .notif) ga fun main alt => some (main, alt)) := by
  intro main alt conds
  have harm : ∀ (main : Stack) (c : Bool),
      final env (a ++ [e]) ⟨main, alt, c :: conds, false⟩ =
        if conds.all id then
          ((if c then ga else fun main alt => some (main, alt)) main alt).map fun p =>
            ⟨p.1, p.2, conds, false⟩
        else some ⟨main, alt, conds, false⟩ := by
    intro main c
    rw [final_append, ha]
    cases hx : conds.all id <;> cases c <;>
      simp only [List.all_cons, id_eq, hx, Bool.and_true, Bool.and_false, Bool.false_eq_true,
        if_true, if_false, Option.bind_some, final_endif he, Option.map_some]
    cases ga main alt with
    | none => rfl
    | some p => simp [final_endif he]
  have hlist : o :: a ++ [e] = [o] ++ (a ++ [e]) := by simp
  rw [hlist, final_append, final_opener ho]
  cases hx : conds.all id with
  | false => simpa [hx] using harm main false
  | true =>
      cases main with
      | nil => rfl
      | cons condition main =>
          have := harm main (VM.condTrue condition ^^ (controlToken o = .notif))
          simp only [hx, if_true] at this
          simp only [if_true, Option.bind_some, this, branch]
          split <;> rfl

end Branches

end AtomicProof.IfTail
