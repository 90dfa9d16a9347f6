/-
Scripts as lists of atoms, and what running them does.

The rewriting passes work on lists of strings, the *atoms* of a script.  An atom is the text of one
instruction, a placeholder `<label>` that is replaced by data when the script is materialised, or
text the passes do not look into (a comment, a placeholder of unknown kind), which is taken to do
anything at all to the machine.

Main definitions:

* `ScriptEnv` — the surroundings of the machine together with the data of the placeholders and the
  effect of the atoms that are no instruction;
* `execAtom`, `run` — running an atom and a script;
* `final` — the machine after a run, when the run succeeds;
* `outcome` — the two stacks after a run that starts from two stacks;
* `MainAtom` — an atom that only works on the main stack;
* `kleisli` — the composition of such atoms.

Main results:

* `final_append` — running a script in two parts;
* `final_mainAtoms` — a row of main-stack atoms is one function of the main stack.
-/

import AtomicProof.ScriptCodec

set_option autoImplicit false

namespace AtomicProof

/-! ### Running a script -/

/-- The surroundings of a script: `placeholder` gives the data a placeholder label stands for, and
`barrier` is the effect of an atom that is neither an instruction nor such a placeholder. -/
structure ScriptEnv extends Env where
  placeholder : String → Option Bytes
  barrier : String → VM → Except String VM

/-- The label of an atom `<label>`, as both passes recognise it. -/
def placeholderLabel (text : String) : Option String :=
  match text.toList with
  | '<' :: rest =>
      if 2 ≤ rest.length ∧ rest.getLast? = some '>' ∧ '<' ∉ rest ∧ '>' ∉ rest.dropLast then
        some (String.ofList rest.dropLast)
      else none
  | _ => none

/-- Surroundings without transaction data, in which a digest is its input, the placeholder
`<self.x>` stands for two bytes and no barrier has an effect. -/
def ScriptEnv.plain : ScriptEnv where
  ripemd160Digest := id
  sha1Digest := id
  sha256Digest := id
  hash160Digest := id
  hash256Digest := id
  transactionData := none
  checkSigCallback := none
  placeholder label := if label = "self.x" then some [0x01, 0x02] else none
  barrier _ vm := .ok vm

/-- The data a placeholder atom stands for. -/
def ScriptEnv.placeholderData (env : ScriptEnv) (text : String) : Option Bytes :=
  (placeholderLabel text).bind env.placeholder

def execAtom (env : ScriptEnv) (text : String) (vm : VM) : Except String VM :=
  match completeInstruction text with
  | some instr => executeOpcode env.toEnv instr vm
  | none =>
      match env.placeholderData text with
      | some payload =>
          if vm.isCurrentlyExecuting then .ok { vm with main := payload :: vm.main } else .ok vm
      | none => env.barrier text vm

/-- The machine after a script; `OP_RETURN` ends the run. -/
def run (env : ScriptEnv) : List String → VM → Except String VM
  | [], vm => .ok vm
  | text :: rest, vm =>
      if vm.finished then .ok vm
      else do
        let vm ← execAtom env text vm
        run env rest vm

/-- The machine after a run that succeeds. -/
def final (env : ScriptEnv) (script : List String) (vm : VM) : Option VM :=
  (run env script vm).toOption

/-- The two stacks after a run that succeeds, for a run that starts from two stacks. -/
def outcome (env : ScriptEnv) (script : List String) (main alt : Stack) : Option (Stack × Stack) :=
  (final env script { main, alt }).map fun vm => (vm.main, vm.alt)

variable {env : ScriptEnv}
variable {vm : VM} {texts : List String} {fs : List (Stack → Except String Stack)} {text s : String}

@[simp] theorem final_nil (vm : VM) : final env [] vm = some vm := rfl

theorem final_of_finished (h : vm.finished = true) (script : List String) :
    final env script vm = some vm := by
  cases script with
  | nil => rfl
  | cons text rest => simp [final, run, h, Except.toOption]

theorem final_cons (h : vm.finished = false) (text : String) (rest : List String) :
    final env (text :: rest) vm = (execAtom env text vm).toOption.bind (final env rest) := by
  simp only [final, run, h, Bool.false_eq_true, if_false]
  cases execAtom env text vm <;> rfl

theorem final_singleton (h : vm.finished = false) (text : String) :
    final env [text] vm = (execAtom env text vm).toOption := by
  rw [final_cons h]
  cases (execAtom env text vm).toOption <;> rfl

/-- **Running a script in two parts.** -/
theorem final_append (xs ys : List String) (vm : VM) :
    final env (xs ++ ys) vm = (final env xs vm).bind (final env ys) := by
  induction xs generalizing vm with
  | nil => rfl
  | cons text rest ih =>
      by_cases h : vm.finished = true
      · rw [final_of_finished h, final_of_finished h, Option.bind_some, final_of_finished h]
      · rw [Bool.not_eq_true] at h
        rw [List.cons_append, final_cons h, final_cons h, Option.bind_assoc]
        congr 1
        funext vm'
        exact ih vm'

theorem final_congr {xs ys : List String} (pre zs : List String)
    (h : ∀ vm, final env xs vm = final env ys vm) (vm : VM) :
    final env (pre ++ xs ++ zs) vm = final env (pre ++ ys ++ zs) vm := by
  simp only [final_append, funext h]

/-! ### Atoms that work on the main stack -/

/-- An atom that applies `f` to the main stack where the machine executes, and does nothing in a
branch that is not taken. -/
def MainAtom (env : ScriptEnv) (text : String) (f : Stack → Except String Stack) : Prop :=
  ∀ vm, execAtom env text vm = if vm.isCurrentlyExecuting then vm.onMain f else .ok vm

/-- Functions on the main stack, one after the other. -/
def kleisli : List (Stack → Except String Stack) → Stack → Option Stack
  | [], s => some s
  | f :: fs, s => (f s).toOption.bind (kleisli fs)

@[simp] theorem kleisli_nil (s : Stack) : kleisli [] s = some s := rfl

@[simp] theorem kleisli_cons (f : Stack → Except String Stack)
    (fs : List (Stack → Except String Stack)) (s : Stack) :
    kleisli (f :: fs) s = (f s).toOption.bind (kleisli fs) := rfl

theorem VM.onMain_toOption (f : Stack → Except String Stack) (vm : VM) :
    (vm.onMain f).toOption = (f vm.main).toOption.map fun main => { vm with main } := by
  unfold VM.onMain
  cases f vm.main <;> rfl

/-- **A row of main-stack atoms is one function of the main stack.** -/
theorem final_mainAtoms (h : List.Forall₂ (MainAtom env) texts fs) (hf : vm.finished = false)
    (hx : vm.isCurrentlyExecuting = true) :
    final env texts vm = (kleisli fs vm.main).map fun main => { vm with main } := by
  induction h generalizing vm with
  | nil => rfl
  | @cons text f texts fs hatom _ ih =>
      rw [final_cons hf, hatom vm, if_pos hx, VM.onMain_toOption, kleisli_cons]
      cases hs : (f vm.main).toOption with
      | none => rfl
      | some main => exact ih hf hx

theorem final_mainAtoms_skip
    (h : List.Forall₂ (MainAtom env) texts fs) (hx : vm.isCurrentlyExecuting = false) :
    final env texts vm = some vm := by
  by_cases hf : vm.finished = true
  · exact final_of_finished hf _
  · rw [Bool.not_eq_true] at hf
    induction h with
    | nil => rfl
    | @cons text f texts fs hatom _ ih =>
        rw [final_cons hf, hatom vm, if_neg (by simp [hx])]
        exact ih

/-- Two rows of main-stack atoms with the same composition do the same to every machine that
executes with a main stack where the compositions agree. -/
theorem final_eq_of_kleisli {texts' : List String} {gs : List (Stack → Except String Stack)}
    (h : List.Forall₂ (MainAtom env) texts fs) (h' : List.Forall₂ (MainAtom env) texts' gs)
    (heq : vm.finished = false → vm.isCurrentlyExecuting = true →
      kleisli fs vm.main = kleisli gs vm.main) :
    final env texts vm = final env texts' vm := by
  by_cases hf : vm.finished = true
  · rw [final_of_finished hf, final_of_finished hf]
  · rw [Bool.not_eq_true] at hf
    by_cases hx : vm.isCurrentlyExecuting = true
    · rw [final_mainAtoms h hf hx, final_mainAtoms h' hf hx, heq hf hx]
    · rw [Bool.not_eq_true] at hx
      rw [final_mainAtoms_skip h hx, final_mainAtoms_skip h' hx]

/-! ### The atoms of an instruction -/

theorem mainAtom_of_mainOp {op : BytOpcode} {operand : Bytes} {f : Stack → Except String Stack}
    (htext : completeInstruction text = some ⟨op.toByte, operand⟩)
    (hop : mainOp env.toEnv operand op = some f) : MainAtom env text f := by
  have hcond : isConditional op = false := by
    rw [← Bool.not_eq_true]
    intro hcond
    rw [mainOp_of_isConditional hcond] at hop
    simp at hop
  intro vm
  simp only [execAtom, htext, executeOpcode, BytOpcode.ofByte?_toByte, hcond, Bool.not_false,
    Bool.and_true, executeKnown, hop]
  cases vm.isCurrentlyExecuting <;> rfl

theorem mainAtom_of_directPush {opcode : UInt8} {operand : Bytes}
    (htext : completeInstruction text = some ⟨opcode, operand⟩)
    (hop : BytOpcode.ofByte? opcode = none) (hle : opcode ≤ 0x4b) :
    MainAtom env text (opPush operand) := by
  intro vm
  simp only [execAtom, htext, executeOpcode, hop, hle, if_true]
  cases vm.isCurrentlyExecuting <;> rfl

/-- A placeholder is not the text of an instruction. -/
theorem completeInstruction_of_placeholderLabel {label : String}
    (h : placeholderLabel s = some label) : completeInstruction s = none := by
  unfold placeholderLabel at h
  split at h
  · rename_i rest hs
    have hdigit : ∀ ds, hexPairs ('<' :: ds) = none := by
      intro ds
      cases ds with
      | nil => rfl
      | cons d ds => simp [hexPairs, show hexDigit '<' = none by decide]
    have hstrip : ScriptCodec.stripHexPrefix ('<' :: rest) = '<' :: rest := rfl
    simp only [completeInstruction, ScriptCodec.hexToBytes, hs, hstrip, hdigit]
    split_ifs <;> rfl
  · simp at h

/-- Hexadecimal text, with or without `0x`, is no placeholder. -/
theorem placeholderLabel_of_hexPairs_strip {bs : Bytes}
    (h : hexPairs (ScriptCodec.stripHexPrefix s.toList) = some bs) : placeholderLabel s = none := by
  unfold placeholderLabel
  split
  · rename_i rest hs
    have hstrip : ScriptCodec.stripHexPrefix ('<' :: rest) = '<' :: rest := rfl
    rw [hs, hstrip] at h
    match rest with
    | [] => simp [hexPairs] at h
    | c :: rest =>
        obtain ⟨_, _, _, hd, _⟩ := hexPairs_cons_cons.1 h
        simp [show hexDigit '<' = none by decide] at hd
  · rfl

theorem placeholderLabel_of_hexPairs {bs : Bytes}
    (h : hexPairs s.toList = some bs) : placeholderLabel s = none :=
  placeholderLabel_of_hexPairs_strip (by rw [stripHexPrefix_of_hexPairs h, h])

theorem mainAtom_of_placeholder {payload : Bytes}
    (htext : completeInstruction text = none) (hdata : env.placeholderData text = some payload) :
    MainAtom env text fun s => .ok (payload :: s) := by
  intro vm
  simp only [execAtom, htext, hdata]
  cases vm.isCurrentlyExecuting <;> rfl

end AtomicProof
