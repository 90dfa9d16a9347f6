/-
The peephole pass preserves what a script does.

The scan of `runOnePass` is followed with one invariant: at every moment the emitted atoms do to
every machine what the atoms already read do.  Each branch of the loop extends both sides by a
window and its replacement; that the two agree after the emitted atoms is the soundness of the
rules.

Main definitions:

* `ScanInv` — the invariant of the scan.

Main results:

* `scanStep_inv`, `scan_inv` — a round of the scan, and the whole scan, keep the invariant;
* `final_runOnePass` — **one call of `runOnePass` preserves the run of a script**, on scripts
  without a push of no data through a length field;
* `final_runRounds` — and so does any number of rounds.
-/

import AtomicProof.PeepholeRules
import Mathlib.Data.List.GetD

set_option autoImplicit false

namespace AtomicProof.Peephole

variable {env : ScriptEnv} {v : List String} {executableEnd : ℕ} {options : LocalRewriteOptions}
variable {st : Scan} {i : ℕ} {a : String}

structure ScanInv (env : ScriptEnv) (v : List String) (limit : ℕ) (st : Scan) : Prop where
  i_le : st.i ≤ limit
  noEmpty : ∀ s ∈ st.out, NoEmptyPushdata s
  sound : ∀ vm, final env st.out vm = final env (v.take st.i) vm

theorem ScanInv.extend {limit : ℕ} (h : ScanInv env v limit st) {k : ℕ}
    (repl : List String) {window : List String} (hwindow : (v.drop st.i).take k = window)
    (hrepl : ∀ vm, Facts st.out vm → final env repl vm = final env window vm) (vm : VM) :
    final env (st.out ++ repl) vm = final env (v.take (st.i + k)) vm := by
  rw [List.take_add, hwindow, final_append, final_append, ← h.sound]
  cases hout : final env st.out vm with
  | none => rfl
  | some mid => exact hrepl mid (facts_of_final h.noEmpty hout)

/-! ### Windows -/

theorem drop_eq_getD_cons (h : i < v.length) : v.drop i = v.getD i "" :: v.drop (i + 1) := by
  rw [List.drop_eq_getElem_cons h, List.getD_eq_getElem _ _ h]

theorem window_one (h : i < v.length) : (v.drop i).take 1 = [v.getD i ""] := by
  rw [drop_eq_getD_cons h]
  rfl

theorem window_two (h : i + 1 < v.length) :
    (v.drop i).take 2 = [v.getD i "", v.getD (i + 1) ""] := by
  rw [drop_eq_getD_cons (by omega), List.take_succ_cons, window_one h]

theorem window_three (h : i + 2 < v.length) :
    (v.drop i).take 3 = [v.getD i "", v.getD (i + 1) "", v.getD (i + 2) ""] := by
  rw [drop_eq_getD_cons (by omega), List.take_succ_cons, window_two h]

theorem mem_getD (h : i < v.length) : v.getD i "" ∈ v := by
  rw [List.getD_eq_getElem _ _ h]
  exact List.getElem_mem h

theorem foldl_applyReplacement_out (oldPC : ℕ) (replacements : List ReplacementInstruction)
    (st : Scan) :
    (replacements.foldl (applyReplacement oldPC) st).out =
      st.out ++ replacements.map (·.encoding) := by
  induction replacements generalizing st with
  | nil => simp
  | cons r rs ih =>
      rw [List.foldl_cons, ih]
      simp [applyReplacement]

/-- The replacements of a rule for three atoms, when one applies, are atoms the pass is correct
on. -/
def CleanReplacements (rule : Option (List ReplacementInstruction)) : Prop :=
  ∀ replacements ∈ rule, ∀ r ∈ replacements, NoEmptyPushdata r.encoding

theorem cleanReplacements_some {replacements : List ReplacementInstruction}
    (h : ∀ r ∈ replacements, NoEmptyPushdata r.encoding) :
    CleanReplacements (some replacements) := by
  intro rs hrs
  obtain rfl := Option.some_inj.1 hrs
  exact h

theorem cleanReplacements_keepFirst (ha : NoEmptyPushdata a) :
    CleanReplacements (some (keepFirstTriple a)) :=
  cleanReplacements_some fun r hr => by
    obtain rfl := List.mem_singleton.1 hr
    exact ha

theorem cleanReplacements_op {op : BytOpcode} (hop : isOneByte op = true) (offset : ℕ) :
    CleanReplacements (some [⟨opHex op, offset⟩]) :=
  cleanReplacements_some fun r hr => by
    obtain rfl := List.mem_singleton.1 hr
    exact noEmptyPushdata_opHex hop

theorem cleanReplacements_keepFirstThenOp (ha : NoEmptyPushdata a) {op : BytOpcode}
    (hop : isOneByte op = true) : CleanReplacements (some (keepFirstThenOpTriple a op)) :=
  cleanReplacements_some fun r hr => by
    rcases List.mem_cons.1 hr with rfl | hr
    · exact ha
    · obtain rfl := List.mem_singleton.1 hr
      exact noEmptyPushdata_opHex hop

/-- A rule for three atoms writes its first atom and opcodes only. -/
theorem cleanReplacements_tripleRule {b c : String} (ha : NoEmptyPushdata a) :
    CleanReplacements (tripleRule a b c) := by
  unfold tripleRule
  refine iteInduction (fun _ => cleanReplacements_op ?_ 2) fun _ => ?_
  · split_ifs <;> rfl
  refine iteInduction (fun _ => cleanReplacements_op rfl 2) fun _ => ?_
  refine iteInduction (fun _ => cleanReplacements_keepFirst ha) fun _ => ?_
  refine iteInduction (fun _ => cleanReplacements_some (by simp)) fun _ => ?_
  refine iteInduction (fun _ => cleanReplacements_keepFirst ha) fun _ => ?_
  refine iteInduction (fun _ => cleanReplacements_keepFirst ha) fun _ => ?_
  refine iteInduction (fun _ => cleanReplacements_keepFirstThenOp ha rfl) fun _ => ?_
  refine iteInduction (fun _ => cleanReplacements_keepFirst ha) fun _ => ?_
  refine iteInduction (fun _ => cleanReplacements_keepFirstThenOp ha rfl) fun _ => ?_
  intro rs hrs
  simp at hrs

theorem tripleRule_of_tryRewriteTriple {b c : String} {replacements : List ReplacementInstruction}
    (h : tryRewriteTriple a b c = some replacements) : tripleRule a b c = some replacements := by
  unfold tryRewriteTriple at h
  split at h
  · rename_i rs hrule
    split at h
    · obtain rfl := Option.some_inj.1 h
      exact hrule
    · simp at h
  · simp at h

/-! ### The scan -/

/-- **A round of the scan keeps the invariant** and moves on. -/
theorem scanStep_inv (allow : Bool) (h : ScanInv env v executableEnd st)
    (hv : ∀ s ∈ v, NoEmptyPushdata s) (hend : executableEnd ≤ v.length)
    (hlt : st.i < executableEnd) (hknown : KnownPlaceholders env options) :
    ScanInv env v executableEnd (scanStep v executableEnd allow options st) ∧
      st.i < (scanStep v executableEnd allow options st).i := by
  -- an atom that no rule touches
  have hkeep : ScanInv env v executableEnd (keepInstruction v st) ∧
      st.i < (keepInstruction v st).i := by
    refine ⟨⟨hlt, ?_, h.extend _ (window_one (by omega)) fun _ _ => rfl⟩, Nat.lt_succ_self _⟩
    intro s hs
    rcases List.mem_append.1 hs with hs | hs
    · exact h.noEmpty s hs
    · rw [List.mem_singleton.1 hs]
      exact hv _ (mem_getD (by omega))
  unfold scanStep
  split
  -- a window of three
  · rename_i replacements htriple
    unfold tripleAt at htriple
    simp only [Bool.and_eq_true, decide_eq_true_eq] at htriple
    split_ifs at htriple with hcond
    have hout : (applyTripleRewrite replacements st).out =
        st.out ++ replacements.map (·.encoding) := foldl_applyReplacement_out _ _ _
    have ha := hv _ (mem_getD (v := v) (i := st.i) (by omega))
    have hb := hv _ (mem_getD (v := v) (i := st.i + 1) (by omega))
    refine ⟨⟨?_, ?_, ?_⟩, ?_⟩
    · show st.i + 3 ≤ executableEnd
      omega
    · intro s hs
      rw [hout] at hs
      rcases List.mem_append.1 hs with hs | hs
      · exact h.noEmpty s hs
      · obtain ⟨r, hr, rfl⟩ := List.mem_map.1 hs
        exact cleanReplacements_tripleRule ha _ (tripleRule_of_tryRewriteTriple htriple) r hr
    · intro vm
      rw [hout]
      exact h.extend _ (window_three (by omega)) (fun vm _ => tryRewriteTriple_sound htriple ha hb vm)
        vm
    · show st.i < st.i + 3
      omega
  · split
    -- the duplicate push
    · rename_i hdup
      simp only [Bool.and_eq_true, decide_eq_true_eq] at hdup
      have hout : (applyDuplicatePush v st).out = st.out ++ [v.getD st.i "", opHex .opDup] := by
        simp [applyDuplicatePush, keepInstruction]
      refine ⟨⟨?_, ?_, ?_⟩, ?_⟩
      · show st.i + 2 ≤ executableEnd
        omega
      · intro s hs
        rw [hout] at hs
        simp only [List.mem_append, List.mem_cons, List.not_mem_nil, or_false] at hs
        rcases hs with hs | rfl | rfl
        · exact h.noEmpty s hs
        · exact hv _ (mem_getD (by omega))
        · exact noEmptyPushdata_opHex rfl
      · intro vm
        rw [hout]
        exact h.extend _ (window_two (by omega))
          (fun vm _ => duplicatePush_sound hdup.2 hknown vm) vm
      · show st.i < st.i + 2
        omega
    -- a window of two
    · have hpair : ∀ rule, pairAt v executableEnd allow st = rule → rule ≠ .none →
          st.i + 1 < executableEnd ∧
            tryRewritePair (v.getD st.i "") (v.getD (st.i + 1) "") st.out allow = rule := by
        rintro rule rfl hrule
        unfold pairAt at hrule ⊢
        simp only [Bool.and_eq_true, decide_eq_true_eq] at hrule ⊢
        split_ifs at hrule ⊢ with h1 h2
        · exact absurd rfl hrule
        · exact ⟨h2.1, rfl⟩
        · exact absurd rfl hrule
      have hcur := hv _ (mem_getD (v := v) (i := st.i) (by omega))
      split
      · rename_i hrule
        obtain ⟨hi, hrule⟩ := hpair _ hrule (by simp)
        refine ⟨⟨?_, h.noEmpty, ?_⟩, ?_⟩
        · show st.i + 2 ≤ executableEnd
          omega
        · intro vm
          have := h.extend [] (window_two (by omega)) (fun vm hfacts => by
            have hsound : RuleSound env (v.getD st.i "") (v.getD (st.i + 1) "") vm _ :=
              tryRewritePair_sound allow hcur hfacts
            rw [hrule] at hsound
            exact hsound _ rfl) vm
          simpa using this
        · show st.i < st.i + 2
          omega
      · rename_i replacement hrule
        obtain ⟨hi, hrule⟩ := hpair _ hrule (by simp)
        refine ⟨⟨?_, ?_, ?_⟩, ?_⟩
        · show st.i + 2 ≤ executableEnd
          omega
        · intro s hs
          rcases List.mem_append.1 hs with hs | hs
          · exact h.noEmpty s hs
          · rw [List.mem_singleton.1 hs]
            exact noEmptyPushdata_opHex (writesOneByte_tryRewritePair allow _ hrule)
        · intro vm
          exact h.extend _ (window_two (by omega)) (fun vm hfacts => by
            have hsound : RuleSound env (v.getD st.i "") (v.getD (st.i + 1) "") vm _ :=
              tryRewritePair_sound allow hcur hfacts
            rw [hrule] at hsound
            exact hsound _ rfl) vm
        · show st.i < st.i + 2
          omega
      · exact hkeep

/-- The whole scan keeps the invariant and reads the executable part to its end. -/
theorem scan_inv (allow : Bool) (fuel : ℕ) (h : ScanInv env v executableEnd st)
    (hv : ∀ s ∈ v, NoEmptyPushdata s) (hend : executableEnd ≤ v.length)
    (hknown : KnownPlaceholders env options) (hfuel : executableEnd - st.i ≤ fuel) :
    ScanInv env v executableEnd (scan v executableEnd allow options fuel st) ∧
      (scan v executableEnd allow options fuel st).i = executableEnd := by
  induction fuel generalizing st with
  | zero =>
      have hle := h.i_le
      exact ⟨h, by rw [scan]; omega⟩
  | succ fuel ih =>
      rw [scan]
      by_cases hlt : st.i < executableEnd
      · rw [if_pos hlt]
        obtain ⟨hinv, hprogress⟩ := scanStep_inv allow h hv hend hlt hknown
        exact ih hinv (by omega)
      · rw [if_neg hlt]
        have hle := h.i_le
        exact ⟨h, by omega⟩

/-- Keeping the atoms after the executable part keeps the invariant and reads to the end. -/
theorem keepRest_inv (fuel : ℕ) (h : ScanInv env v v.length st)
    (hv : ∀ s ∈ v, NoEmptyPushdata s) (hfuel : v.length - st.i ≤ fuel) :
    ScanInv env v v.length (keepRest v fuel st) ∧ (keepRest v fuel st).i = v.length := by
  induction fuel generalizing st with
  | zero =>
      have hle := h.i_le
      exact ⟨h, by rw [keepRest]; omega⟩
  | succ fuel ih =>
      rw [keepRest]
      by_cases hlt : st.i < v.length
      · rw [if_pos hlt]
        refine ih ⟨hlt, ?_, h.extend _ (window_one hlt) fun _ _ => rfl⟩ ?_
        · intro s hs
          rcases List.mem_append.1 hs with hs | hs
          · exact h.noEmpty s hs
          · rw [List.mem_singleton.1 hs]
            exact hv _ (mem_getD hlt)
        · show v.length - (st.i + 1) ≤ fuel
          omega
      · rw [if_neg hlt]
        have hle := h.i_le
        exact ⟨h, by omega⟩

/-! ### The executable part -/

theorem typedPrefix_le {script : List BytecodeInstruction} {left : Bool} {e : ℕ}
    {r : Option ℕ} {e' : ℕ} {r' : Option ℕ} (h : typedPrefix i script left e r = some (e', r'))
    (he : e ≤ i) (hr : ∀ n ∈ r, n ≤ i) : r'.getD e' ≤ i + script.length := by
  induction script generalizing i left e r with
  | nil =>
      simp only [typedPrefix, Option.some.injEq, Prod.mk.injEq] at h
      obtain ⟨rfl, rfl⟩ := h
      cases r with
      | none => exact he
      | some n => exact hr n rfl
  | cons instruction rest ih =>
      simp only [typedPrefix] at h
      have hlen : i + (instruction :: rest).length = i + 1 + rest.length := by
        simp only [List.length_cons]
        omega
      rw [hlen]
      split_ifs at h with hregion hleft hreturn
      · exact ih h (by omega) fun n hn => Nat.le_succ_of_le (hr n hn)
      · refine ih h (Nat.le_refl _) fun n hn => ?_
        obtain rfl := Option.some_inj.1 hn
        exact Nat.le_refl _
      · exact ih h (Nat.le_refl _) fun n hn => Nat.le_succ_of_le (hr n hn)

/-- The executable part is a part of the script. -/
theorem optimizablePrefixLength_le (v : List String)
    (artifact : Option (List BytecodeInstruction)) :
    optimizablePrefixLength v artifact ≤ v.length := by
  unfold optimizablePrefixLength
  cases artifact with
  | none =>
      unfold lastReturnEnd
      cases List.findIdx? (fun s => isOp s .opReturn) v.reverse with
      | none => exact Nat.le_refl _
      | some n => exact Nat.sub_le _ _
  | some lockingScript =>
      by_cases hlen : lockingScript.length = v.length
      · simp only [hlen, ne_eq, not_true_eq_false, if_false]
        cases h : typedPrefix 0 lockingScript false 0 none with
        | none => exact Nat.zero_le _
        | some result =>
            obtain ⟨e, r⟩ := result
            have := typedPrefix_le h (Nat.le_refl _) (by simp)
            rw [hlen] at this
            simpa using this
      · simp [hlen]

/-! ### The pass -/

/-- The atoms of the result are atoms the pass is correct on, and **one call of `runOnePass`
preserves the run of a script**. -/
theorem runOnePass_inv (env : ScriptEnv) (allow : Bool) (artifact : Option (List BytecodeInstruction))
    (hv : ∀ s ∈ v, NoEmptyPushdata s) (hknown : KnownPlaceholders env options) :
    (∀ s ∈ (runOnePass v allow options artifact).instructions, NoEmptyPushdata s) ∧
      ∀ vm, final env (runOnePass v allow options artifact).instructions vm = final env v vm := by
  have hend := optimizablePrefixLength_le v artifact
  have hstart : ScanInv env v (optimizablePrefixLength v artifact)
      ⟨0, [], List.replicate v.length none, false⟩ :=
    ⟨Nat.zero_le _, by simp, fun _ => rfl⟩
  obtain ⟨hscan, -⟩ := scan_inv allow (optimizablePrefixLength v artifact) hstart hv hend
    hknown (Nat.sub_le _ _)
  obtain ⟨hlast, hi⟩ := keepRest_inv v.length
    (⟨Nat.le_trans hscan.i_le hend, hscan.noEmpty, hscan.sound⟩ : ScanInv env v v.length _) hv
    (Nat.sub_le _ _)
  unfold runOnePass
  simp only
  split_ifs with hchanged
  · refine ⟨hlast.noEmpty, fun vm => ?_⟩
    rw [hlast.sound, hi, List.take_length]
  · exact ⟨hv, fun _ => rfl⟩

theorem final_runRounds (allow : Bool)
    (artifactAt : ℕ → Option (List BytecodeInstruction)) (rounds : ℕ)
    (hv : ∀ s ∈ v, NoEmptyPushdata s) (hknown : KnownPlaceholders env options) (vm : VM) :
    final env (runRounds allow options artifactAt rounds v) vm = final env v vm := by
  induction rounds generalizing v with
  | zero => rfl
  | succ rounds ih =>
      rw [runRounds]
      obtain ⟨hclean, hsound⟩ := runOnePass_inv env allow (artifactAt rounds) hv hknown
      split_ifs
      · rw [ih hclean, hsound]
      · rfl

/-- **The peephole pass preserves what a script does to the two stacks**, in one round and in any
number of rounds, on scripts in which no push with a length field is without data. -/
theorem outcome_peephole (env : ScriptEnv) (v : List String) (allow : Bool)
    (options : LocalRewriteOptions) (hv : ∀ s ∈ v, NoEmptyPushdata s)
    (hknown : KnownPlaceholders env options) (main alt : Stack) :
    (∀ artifact, outcome env (runOnePass v allow options artifact).instructions main alt =
        outcome env v main alt) ∧
      ∀ artifactAt rounds, outcome env (runRounds allow options artifactAt rounds v) main alt =
        outcome env v main alt := by
  refine ⟨fun artifact => ?_, fun artifactAt rounds => ?_⟩
  · rw [outcome, (runOnePass_inv env allow artifact hv hknown).2, outcome]
  · rw [outcome, final_runRounds allow artifactAt rounds hv hknown, outcome]

/-- The pass on a script with a dropped push, a known placeholder written twice and a negated
condition. -/
theorem outcome_peephole_plain :
    outcome .plain (runOnePass ["52", "75", "<self.x>", "<self.x>", "87", "91", "63", "68"] true
        ⟨fun label => if label = "self.x" then some 2 else none, .legacy⟩ none).instructions [] [] =
      outcome .plain ["52", "75", "<self.x>", "<self.x>", "87", "91", "63", "68"] [] [] :=
  (outcome_peephole .plain _ true ⟨fun label => if label = "self.x" then some 2 else none, .legacy⟩
    (by decide) (fun label size h => ⟨[0x01, 0x02], by
      by_cases hlabel : label = "self.x"
      · simp only [hlabel, if_true, Option.some_inj] at h
        exact ⟨if_pos hlabel, h⟩
      · simp [hlabel] at h⟩) [] []).1 none

/-- Without the condition the statement fails: `OP_PUSHDATA1` with no data is a complete
instruction that the machine refuses, and the pass deletes it together with the `OP_DROP` after
it. -/
theorem outcome_peephole_emptyPushdata :
    ¬ ∀ (env : ScriptEnv) (v : List String) (allow : Bool) (options : LocalRewriteOptions)
      (artifact : Option (List BytecodeInstruction)),
      (∀ s ∈ v, (completeInstruction s).isSome) → KnownPlaceholders env options →
      ∀ main alt, outcome env (runOnePass v allow options artifact).instructions main alt =
        outcome env v main alt := by
  intro h
  have hrun := h .plain ["4c00", "75"] true ⟨fun _ => none, .legacy⟩ none (by decide)
    (fun _ _ hnone => by simp at hnone) [] []
  revert hrun
  decide

end AtomicProof.Peephole
