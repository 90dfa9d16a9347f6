/-
The fixed point of the peephole pass.

The loops of `execute` in `src/src/bytecode_peephole_pass.h` call `runOnePass` again until it reports no
change, sixteen times at most; the comment on the limit calls it a mere defence.  Every call that reports
a change makes the list lighter, so the calls do come to an end, but only after as many as the list asks
for: rules uncover one another level by level, and nine levels ask for more than sixteen calls.

The number of calls is counted on a list without looking at the limit (`neededCalls`), and the limit is
compared with it afterwards.

Main definitions:

* `neededCalls` — how many calls in a row report a change;
* `Fixed` — a further call changes nothing;
* `PassData.Carried` — no provenance rewrite fails;
* `PassData.WithinLimit` — sixteen calls are enough, and the old list is not put back.

Main results:

* `fixed_iff_neededCalls` — rounds end in a fixed point exactly when they are as many as the list needs;
* `totalWeight_optimize_le` — merging common tails makes no list heavier;
* `changed_of_containsTrueVerifyPair` — a list that is put back is no fixed point;
* `peephole_settles` — **what `execute` commits is a fixed point exactly when its rounds are enough and
  the old list is not put back**, and light lists never need more rounds;
* `committed_not_fixed` — a list that is put back, and a list that needs more rounds.
-/

import AtomicProof.PeepholePass

set_option autoImplicit false

namespace AtomicProof.Peephole

open BytecodeArtifactRewriter (reverseMapping)

/-! ### Calls that report a change -/

/-- A further call of `runOnePass` reports no change. -/
def Fixed (allow : Bool) (options : LocalRewriteOptions) (w : Working) : Prop :=
  (runOnePass w.instrs allow options w.typed).changed = false

/-- The calls in a row that report a change, counted as far as the fuel goes.  A call that cannot be
moved along is the last one. -/
def changingCalls (allow : Bool) (options : LocalRewriteOptions) : ℕ → Working → ℕ
  | 0, _ => 0
  | fuel + 1, w =>
      match round allow options w with
      | .unchanged => 0
      | .failed => 1
      | .changed next => changingCalls allow options fuel next + 1

/-- **The calls that a list needs**: how many in a row report a change.  Its weight is fuel enough. -/
def neededCalls (allow : Bool) (options : LocalRewriteOptions) (w : Working) : ℕ :=
  changingCalls allow options (totalWeight w.instrs) w

section Calls

variable {allow : Bool} {options : LocalRewriteOptions}
variable {w last : Working} {n : ℕ}

theorem totalWeight_of_round {next : Working} (h : round allow options w = .changed next) :
    totalWeight next.instrs < totalWeight w.instrs := by
  obtain ⟨hchanged, hmove⟩ := move_of_round h
  rw [(fields_of_move hmove).1]
  exact totalWeight_runOnePass_lt hchanged

theorem fixed_of_round (h : round allow options w = .unchanged) : Fixed allow options w :=
  changed_of_round h

theorem fixed_of_totalWeight (h : totalWeight w.instrs = 0) : Fixed allow options w := by
  unfold Fixed
  by_contra hchanged
  rw [Bool.not_eq_false] at hchanged
  have hlt := totalWeight_runOnePass_lt hchanged
  omega

theorem changingCalls_of_fixed (h : Fixed allow options w) (fuel : ℕ) :
    changingCalls allow options fuel w = 0 := by
  cases fuel with
  | zero => rfl
  | succ fuel => rw [changingCalls, round_of_unchanged h]

theorem changingCalls_le (fuel : ℕ) (w : Working) : changingCalls allow options fuel w ≤ fuel := by
  induction fuel generalizing w with
  | zero => exact le_rfl
  | succ fuel ih =>
      rw [changingCalls]
      cases hround : round allow options w with
      | unchanged => exact Nat.zero_le _
      | failed => exact Nat.succ_le_succ (Nat.zero_le _)
      | changed next => exact Nat.succ_le_succ (ih next)

theorem neededCalls_le (w : Working) : neededCalls allow options w ≤ totalWeight w.instrs :=
  changingCalls_le _ w

/-- Fuel beyond the weight counts no further calls. -/
theorem changingCalls_congr {m : ℕ} (hm : totalWeight w.instrs ≤ m)
    (hn : totalWeight w.instrs ≤ n) :
    changingCalls allow options m w = changingCalls allow options n w := by
  induction m generalizing n w with
  | zero =>
      have hfixed : Fixed allow options w := fixed_of_totalWeight (Nat.le_zero.1 hm)
      rw [changingCalls_of_fixed hfixed, changingCalls_of_fixed hfixed]
  | succ m ih =>
      cases n with
      | zero =>
          have hfixed : Fixed allow options w := fixed_of_totalWeight (Nat.le_zero.1 hn)
          rw [changingCalls_of_fixed hfixed, changingCalls_of_fixed hfixed]
      | succ n =>
          rw [changingCalls, changingCalls]
          cases hround : round allow options w with
          | unchanged => rfl
          | failed => rfl
          | changed next =>
              have hlt := totalWeight_of_round hround
              simp only [ih (w := next) (n := n) (by omega) (by omega)]

theorem neededCalls_of_changed {next : Working} (h : round allow options w = .changed next) :
    neededCalls allow options w = neededCalls allow options next + 1 := by
  have hlt := totalWeight_of_round h
  obtain ⟨fuel, hfuel⟩ := Nat.exists_eq_succ_of_ne_zero (show totalWeight w.instrs ≠ 0 by omega)
  rw [Nat.succ_eq_add_one] at hfuel
  rw [neededCalls, hfuel, changingCalls, h]
  show changingCalls allow options fuel next + 1 = _
  rw [changingCalls_congr (n := totalWeight next.instrs) (by omega) le_rfl, neededCalls]

theorem fixed_iff_neededCalls_eq_zero :
    Fixed allow options w ↔ neededCalls allow options w = 0 := by
  refine ⟨fun h => changingCalls_of_fixed h _, fun h => ?_⟩
  cases hround : round allow options w with
  | unchanged => exact fixed_of_round hround
  | failed =>
      by_cases hweight : totalWeight w.instrs = 0
      · exact fixed_of_totalWeight hweight
      · obtain ⟨fuel, hfuel⟩ := Nat.exists_eq_succ_of_ne_zero hweight
        rw [neededCalls, hfuel, Nat.succ_eq_add_one, changingCalls, hround] at h
        exact absurd h one_ne_zero
  | changed next =>
      rw [neededCalls_of_changed hround] at h
      exact absurd h (Nat.succ_ne_zero _)

/-- **Rounds end in a fixed point exactly when they are as many as the list needs.** -/
theorem fixed_iff_neededCalls (h : rounds allow options n w = some last) :
    Fixed allow options last ↔ neededCalls allow options w ≤ n := by
  fun_induction rounds allow options n w with
  | case1 w =>
      obtain rfl := Option.some.inj h
      rw [fixed_iff_neededCalls_eq_zero, Nat.le_zero]
  | case2 w n hround =>
      obtain rfl := Option.some.inj h
      have hfixed := fixed_of_round hround
      exact iff_of_true hfixed
        ((fixed_iff_neededCalls_eq_zero.1 hfixed).le.trans (Nat.zero_le _))
  | case3 w n hround => cases h
  | case4 w n next hround ih => rw [ih h, neededCalls_of_changed hround, Nat.succ_le_succ_iff]

theorem cleanup_of_rounds (h : rounds allow options n w = some last) :
    cleanup allow options n w = last := by
  fun_induction rounds allow options n w with
  | case1 w => exact Option.some.inj h
  | case2 w n hround =>
      rw [cleanup, hround]
      exact Option.some.inj h
  | case3 w n hround => cases h
  | case4 w n next hround ih =>
      rw [cleanup, hround]
      exact ih h

theorem totalWeight_of_rounds (h : rounds allow options n w = some last) :
    totalWeight last.instrs ≤ totalWeight w.instrs := by
  fun_induction rounds allow options n w with
  | case1 w => rw [Option.some.inj h]
  | case2 w n hround => rw [Option.some.inj h]
  | case3 w n hround => cases h
  | case4 w n next hround ih => exact (ih h).trans (totalWeight_of_round hround).le

end Calls

/-! ### Common tails -/

section Tails

open IfTail

@[simp] theorem totalWeight_nil : totalWeight [] = 0 := rfl

@[simp] theorem totalWeight_cons (s : String) (rest : List String) :
    totalWeight (s :: rest) = weight s + totalWeight rest := rfl

theorem totalWeight_code_cut (nodes : List Node) (i : ℕ) :
    totalWeight (code (nodes.take i)) + totalWeight (code (nodes.drop i)) =
      totalWeight (code nodes) := by
  rw [← totalWeight_append, ← code_append, List.take_append_drop]

theorem totalWeight_extract_le (o m e : Atom) (t f : List Node) (c : Counters) :
    totalWeight (code (.ifRegion o (extractCommonTail t f c).thenBody (some m)
      (extractCommonTail t f c).elseBody e :: (extractCommonTail t f c).commonTail)) ≤
        totalWeight (codeNode (.ifRegion o t (some m) f e)) := by
  rcases extractCommonTail_cases t f c with ⟨ht, hf, htail⟩ | ⟨-, -, i, j, hequal, ht, hf, htail⟩
  · rw [ht, hf, htail, code_cons, code_nil, List.append_nil]
  · rw [ht, hf, htail, code_cons, code_zipWith_mergeOrigins hequal.length_eq, codeNode_ifElse,
      codeNode_ifElse]
    have hthen := totalWeight_code_cut t i
    have helse := totalWeight_code_cut f j
    simp only [totalWeight_append, totalWeight_cons, totalWeight_nil]
    omega

mutual

theorem totalWeight_optimizeNode_le : ∀ (n : Node) (c : Counters),
    totalWeight (code (optimizeNode n c).1) ≤ totalWeight (codeNode n)
  | .atom a, c => by rw [optimizeNode, code_cons, code_nil, List.append_nil]
  | .ifRegion o t m f e, c => by
      have ht := totalWeight_optimizeSequence_le t c
      have hf := totalWeight_optimizeSequence_le f (optimizeSequence t c).2
      cases m with
      | none =>
          simp only [optimizeNode, code_cons, code_nil, List.append_nil, codeNode_if,
            totalWeight_append, totalWeight_cons]
          omega
      | some m =>
          refine (totalWeight_extract_le o m e _ _ _).trans ?_
          simp only [codeNode_ifElse, totalWeight_append, totalWeight_cons]
          omega

theorem totalWeight_optimizeSequence_le : ∀ (ns : List Node) (c : Counters),
    totalWeight (code (optimizeSequence ns c).1) ≤ totalWeight (code ns)
  | [], c => le_rfl
  | n :: ns, c => by
      have hn := totalWeight_optimizeNode_le n c
      have hns := totalWeight_optimizeSequence_le ns (optimizeNode n c).2
      show totalWeight (code ((optimizeNode n c).1 ++
        (optimizeSequence ns (optimizeNode n c).2).1)) ≤ _
      rw [code_append, code_cons, totalWeight_append, totalWeight_append]
      omega

end

theorem map_encoding_locate (options : StructuredIfTailOptions) (pc : ℕ)
    (arms : List BranchPredicate) (instructions : List String) :
    (locate options pc arms instructions).map (·.encoding) = instructions := by
  induction instructions generalizing pc arms with
  | nil => rfl
  | cons s rest ih =>
      rw [locate, List.map_cons, ih]
      rfl

theorem totalWeight_optimize_le (instructions : List String) (options : StructuredIfTailOptions) :
    totalWeight (optimize instructions options).instructions ≤ totalWeight instructions := by
  unfold optimize
  cases hparse : parse instructions options with
  | none => exact le_rfl
  | some nodes =>
      have hcode : code nodes = instructions := by
        rw [code, parse_locate hparse, map_encoding_locate]
      dsimp only
      split
      · exact le_rfl
      · split_ifs
        · exact (totalWeight_optimizeSequence_le nodes {}).trans_eq (by rw [hcode])
        · exact le_rfl

end Tails

variable {options : IfTail.StructuredIfTailOptions} {w merged : Working}

theorem totalWeight_of_mergeTails (h : mergeTails options w = some merged) :
    totalWeight merged.instrs ≤ totalWeight w.instrs := by
  unfold mergeTails at h
  dsimp only at h
  split at h
  · rw [(fields_of_move h).1, totalWeight_append]
    have hle := totalWeight_optimize_le (w.instrs.take (optimizablePrefixLength w.instrs w.typed))
      options
    have hcut : totalWeight (w.instrs.take (optimizablePrefixLength w.instrs w.typed)) +
        totalWeight (w.instrs.drop (optimizablePrefixLength w.instrs w.typed)) =
          totalWeight w.instrs := by
      rw [← totalWeight_append, List.take_append_drop]
    omega
  · cases h

/-! ### True `VERIFY`s -/

section TrueVerify

variable {v : List String} {executableEnd : ℕ} {options : LocalRewriteOptions}

/-- A step either reports a change or keeps the atom that it is at. -/
theorem scanStep_cases (v : List String) (executableEnd : ℕ) (allow : Bool)
    (options : LocalRewriteOptions) (st : Scan) :
    (scanStep v executableEnd allow options st).changed = true ∨
      pairAt v executableEnd allow st = .none ∧
        scanStep v executableEnd allow options st = keepInstruction v st := by
  unfold scanStep
  split
  · exact .inl rfl
  · split_ifs
    · exact .inl rfl
    · split
      · exact .inl rfl
      · exact .inl rfl
      · rename_i hpair
        exact .inr ⟨hpair, rfl⟩

theorem changed_of_scan {fuel : ℕ} {allow : Bool} {st : Scan} (h : st.changed = true) :
    (scan v executableEnd allow options fuel st).changed = true := by
  induction fuel generalizing st with
  | zero => exact h
  | succ fuel ih =>
      rw [scan]
      split_ifs
      · rcases scanStep_cases v executableEnd allow options st with hstep | ⟨-, hstep⟩
        · exact ih hstep
        · exact ih (by rw [hstep]; exact h)
      · exact h

theorem isInert_of_isOp {s : String} {op : BytOpcode} (h : isOp s op = true) :
    isInert s = false := by
  have hpure : isPureHex s = true := (isPureHex_iff s).2 ⟨_, by simp, (isOp_iff s op).1 h⟩
  unfold isInert
  split
  · rename_i hnil
    simp [isPureHex, hnil] at hpure
  · rename_i rest hcomment
    -- a comment is no row of digits
    simp only [isPureHex, hcomment, List.all_cons, Bool.and_eq_true] at hpure
    exact absurd hpure.2.1 (by decide)
  · rw [hpure]
    rfl

theorem isControlFlow_of_isOp {s : String} {op : BytOpcode} (h : isOp s op = true) :
    isControlFlow s = controlFlowOpcodes.any fun barrier => barrier.toByte == op.toByte := by
  rw [isControlFlow, firstByte_of_hexPairs ((isOp_iff s op).1 h)]

theorem tryRewritePair_trueVerify {cur nxt : String} (emitted : List String)
    (hone : isOp cur .op1 = true) (hverify : isOp nxt .opVerify = true) :
    tryRewritePair cur nxt emitted true = .deletePair := by
  have hnot : isOpNot cur = false := by
    by_contra hnot
    rw [Bool.not_eq_false] at hnot
    exact absurd (isOp_unique hone hnot) (by decide)
  have hterminal : terminalRule cur nxt emitted true = .deletePair := by
    rw [terminalRule, hnot, hone, hverify]
    rfl
  rw [tryRewritePair, hterminal]

theorem pairAt_of_trueVerify {st : Scan} (hend : st.i + 1 < executableEnd)
    (hone : isOp (v.getD st.i "") .op1 = true)
    (hverify : isOp (v.getD (st.i + 1) "") .opVerify = true) :
    pairAt v executableEnd true st = .deletePair := by
  have hflow : isControlFlow (v.getD st.i "") = false := by
    rw [isControlFlow_of_isOp hone]
    decide
  rw [pairAt, isInert_of_isOp hone, hflow, isInert_of_isOp hverify]
  simp only [hend, decide_true]
  exact tryRewritePair_trueVerify _ hone hverify

/-- A scan that has not passed a true `VERIFY` yet will report a change. -/
theorem changed_of_scan_trueVerify {k fuel : ℕ} {st : Scan} (hi : st.i ≤ k)
    (hend : k + 1 < executableEnd) (hfuel : executableEnd - st.i ≤ fuel)
    (hone : isOp (v.getD k "") .op1 = true) (hverify : isOp (v.getD (k + 1) "") .opVerify = true) :
    (scan v executableEnd true options fuel st).changed = true := by
  induction fuel generalizing st with
  | zero => omega
  | succ fuel ih =>
      rw [scan, if_pos (by omega)]
      rcases scanStep_cases v executableEnd true options st with hstep | ⟨hpair, hstep⟩
      · exact changed_of_scan hstep
      · rw [hstep]
        by_cases hk : st.i = k
        · subst hk
          rw [pairAt_of_trueVerify hend hone hverify] at hpair
          cases hpair
        · exact ih (show st.i + 1 ≤ k by omega) (show executableEnd - (st.i + 1) ≤ fuel by omega)

theorem changed_keepRest (v : List String) (fuel : ℕ) (st : Scan) :
    (keepRest v fuel st).changed = st.changed := by
  induction fuel generalizing st with
  | zero => rfl
  | succ fuel ih =>
      rw [keepRest]
      split_ifs
      · exact ih _
      · rfl

/-- **A list with a true `VERIFY` is no fixed point** where true `VERIFY`s may go. -/
theorem changed_of_containsTrueVerifyPair {artifact : Option (List BytecodeInstruction)}
    (h : containsTrueVerifyPair v artifact = true) :
    (runOnePass v true options artifact).changed = true := by
  have hle := optimizablePrefixLength_le v artifact
  obtain ⟨⟨cur, nxt⟩, hmem, hpair⟩ := List.any_eq_true.1 h
  obtain ⟨hone, hverify⟩ := Bool.and_eq_true_iff.1 hpair
  obtain ⟨k, hk⟩ := List.mem_iff_getElem?.1 hmem
  rw [List.getElem?_zip_eq_some] at hk
  obtain ⟨hcur, hnxt⟩ := hk
  rw [List.getElem?_tail] at hnxt
  obtain ⟨hlt, -⟩ := List.getElem?_eq_some_iff.1 hnxt
  rw [List.length_take] at hlt
  rw [List.getElem?_take_of_lt (by omega)] at hcur hnxt
  show (keepRest _ _ _).changed = true
  rw [changed_keepRest]
  exact changed_of_scan_trueVerify (Nat.zero_le k) (by omega) le_rfl
    (by rwa [List.getD_eq_getElem?_getD, hcur]) (by rwa [List.getD_eq_getElem?_getD, hnxt])

end TrueVerify

/-! ### The typed script is kept -/

theorem isSome_round {allow : Bool} {options : LocalRewriteOptions} {next : Working}
    (h : round allow options w = .changed next) : next.artifact.isSome = w.artifact.isSome :=
  (fields_of_move (move_of_round h).2).2

theorem isSome_rounds {allow : Bool} {options : LocalRewriteOptions} {n : ℕ} {last : Working}
    (h : rounds allow options n w = some last) : last.artifact.isSome = w.artifact.isSome := by
  fun_induction rounds allow options n w with
  | case1 w => rw [← Option.some.inj h]
  | case2 w n hround => rw [← Option.some.inj h]
  | case3 w n hround => cases h
  | case4 w n next hround ih => rw [ih h, isSome_round hround]

theorem isSome_cleanup (allow : Bool) (options : LocalRewriteOptions) (n : ℕ) (w : Working) :
    (cleanup allow options n w).artifact.isSome = w.artifact.isSome := by
  induction n generalizing w with
  | zero => rfl
  | succ n ih =>
      rw [cleanup]
      cases hround : round allow options w with
      | unchanged => rfl
      | failed => rfl
      | changed next => exact (ih next).trans (isSome_round hround)

theorem isSome_mergeTails
    (h : mergeTails options w = some merged) : merged.artifact.isSome = w.artifact.isSome := by
  unfold mergeTails at h
  dsimp only at h
  split at h
  · exact (fields_of_move h).2
  · cases h

namespace PassData

theorem isSome_lastState (data : PassData) (settled : Working) :
    (data.lastState settled).artifact.isSome = settled.artifact.isSome := by
  unfold lastState
  cases hmerge : mergeTails data.structuredOptions settled with
  | none => rfl
  | some merged => exact (isSome_cleanup _ _ _ _).trans (isSome_mergeTails hmerge)

theorem restoreView_artifact (data : PassData) : data.restoreView.artifact = data.artifact := by
  unfold restoreView
  cases h : data.artifact with
  | none => exact h
  | some artifact => rfl

theorem restoreView_localOptions (data : PassData) :
    data.restoreView.localOptions = data.localOptions := by
  unfold restoreView localOptions
  cases h : data.artifact <;> simp [h]

theorem restoreView_structuredOptions (data : PassData) :
    data.restoreView.structuredOptions = data.structuredOptions := by
  unfold restoreView structuredOptions
  cases h : data.artifact <;> rfl

theorem restoreView_allowTrueVerifyElision (data : PassData) :
    data.restoreView.allowTrueVerifyElision = data.allowTrueVerifyElision := by
  unfold restoreView allowTrueVerifyElision
  cases h : data.artifact <;> rfl

theorem restoreView_workingArtifact (data : PassData) :
    data.restoreView.workingArtifact = data.artifact := by
  unfold workingArtifact
  rw [restoreView_artifact]
  cases h : data.artifact with
  | none => rfl
  | some artifact =>
      have hlength : artifact.lockingScript.length = data.restoreView.instrs.length := by
        unfold restoreView
        rw [h]
        exact (List.length_map _).symm
      rw [Option.filter_some, if_pos (decide_eq_true hlength)]

variable {data : PassData} {start : Working}

theorem start_artifact
    (h : data.restoreView.start = some start) : start.artifact = data.artifact := by
  unfold PassData.start at h
  obtain ⟨debugInfo, -, h⟩ := Option.bind_eq_some_iff.1 h
  obtain rfl := Option.some.inj h
  exact restoreView_workingArtifact data

theorem commit_typed {last : Working} (h : last.artifact.isSome = data.artifact.isSome) :
    (data.commit last).artifact = last.artifact := by
  show (if data.artifact.isSome && last.artifact.isSome then last.artifact else data.artifact) = _
  rw [h, Bool.and_self]
  split
  · rfl
  · rename_i hnone
    rw [Option.not_isSome_iff_eq_none] at hnone
    rw [hnone]
    rw [hnone, Option.isSome_none, Option.isSome_eq_false_iff, Option.isNone_iff_eq_none] at h
    exact h.symm

/-! ### What is committed -/

/-- No provenance rewrite fails: the debug information can be copied, and every call of both loops is
moved along. -/
def Carried (data : PassData) : Prop :=
  ∃ start settled, data.restoreView.start = some start ∧
    rounds data.allowTrueVerifyElision data.localOptions maxRounds start = some settled ∧
    ∀ merged, mergeTails data.structuredOptions settled = some merged →
      (rounds data.allowTrueVerifyElision data.localOptions maxRounds merged).isSome

/-- The list that the last loop starts with: the merged tails, where there are some to merge. -/
def lastLoopStart (data : PassData) (start settled : Working) : Working :=
  (mergeTails data.structuredOptions settled).getD start

/-- **The limit is not reached**: the list that the last loop starts with needs no more calls than the
loop makes, and the guard for true `VERIFY`s does not put the old list back. -/
def WithinLimit (data : PassData) : Prop :=
  data.instrs ≠ [] → ∀ start settled, data.restoreView.start = some start →
    rounds data.allowTrueVerifyElision data.localOptions maxRounds start = some settled →
      neededCalls data.allowTrueVerifyElision data.localOptions (data.lastLoopStart start settled) ≤
          maxRounds ∧
        data.restoreView.putBack (data.restoreView.lastState settled) = false

/-- A further call of `runOnePass` on what `execute` commits reports no change. -/
def CommitsFixed (data : PassData) : Prop :=
  (runOnePass data.execute.instrs data.allowTrueVerifyElision data.localOptions
    (data.execute.artifact.map (·.lockingScript))).changed = false

/-- What is committed where nothing fails. -/
theorem execute_of_rounds {settled : Working} (hne : data.instrs ≠ [])
    (hstart : data.restoreView.start = some start)
    (hrounds : rounds data.allowTrueVerifyElision data.localOptions maxRounds start =
      some settled) :
    data.execute =
      if data.restoreView.putBack (data.restoreView.lastState settled) then
        data.restoreView.commit ⟨data.restoreView.instrs,
          data.restoreView.artifact.or (data.restoreView.lastState settled).artifact,
          start.debugInfo⟩
      else data.restoreView.commit (data.restoreView.lastState settled) := by
  unfold execute
  rw [if_neg (by rwa [List.isEmpty_iff]), hstart]
  show data.restoreView.run start = _
  unfold run
  rw [restoreView_allowTrueVerifyElision, restoreView_localOptions, hrounds]

/-- The last state is a fixed point exactly when the last loop makes enough calls. -/
theorem fixed_lastState {settled : Working}
    (hrounds : rounds data.allowTrueVerifyElision data.localOptions maxRounds start = some settled)
    (hmerged : ∀ merged, mergeTails data.structuredOptions settled = some merged →
      (rounds data.allowTrueVerifyElision data.localOptions maxRounds merged).isSome) :
    Fixed data.allowTrueVerifyElision data.localOptions (data.restoreView.lastState settled) ↔
      neededCalls data.allowTrueVerifyElision data.localOptions (data.lastLoopStart start settled) ≤
        maxRounds := by
  unfold lastState lastLoopStart
  rw [restoreView_structuredOptions, restoreView_allowTrueVerifyElision, restoreView_localOptions]
  cases hmerge : mergeTails data.structuredOptions settled with
  | none => exact fixed_iff_neededCalls hrounds
  | some merged =>
      obtain ⟨last, hlast⟩ := Option.isSome_iff_exists.1 (hmerged merged hmerge)
      show Fixed _ _ (cleanup _ _ _ merged) ↔ _
      rw [cleanup_of_rounds hlast]
      exact fixed_iff_neededCalls hlast

/-- A list that is put back is no fixed point. -/
theorem not_commitsFixed_of_putBack {last : Working} {debugInfo : Option _}
    (h : data.restoreView.putBack last = true)
    (hexecute : data.execute = data.restoreView.commit
      ⟨data.restoreView.instrs, data.restoreView.artifact.or last.artifact, debugInfo⟩) :
    ¬ data.CommitsFixed := by
  unfold putBack at h
  simp only [Bool.and_eq_true] at h
  obtain ⟨⟨⟨hallow, -⟩, -⟩, hpair⟩ := h
  have hartifact : data.execute.artifact = data.restoreView.artifact := by
    rw [hexecute]
    show (if _ then _ else _) = _
    cases data.restoreView.artifact <;> rfl
  have hinstrs : data.execute.instrs = data.restoreView.instrs := by
    rw [hexecute]
    rfl
  unfold CommitsFixed
  rw [hinstrs, hartifact, ← restoreView_allowTrueVerifyElision, hallow,
    changed_of_containsTrueVerifyPair hpair]
  exact Bool.noConfusion

/-- **What is committed is a fixed point exactly when the limit is not reached.** -/
theorem commitsFixed_iff (h : data.Carried) : data.CommitsFixed ↔ data.WithinLimit := by
  obtain ⟨start, settled, hstart, hrounds, hmerged⟩ := h
  by_cases hne : data.instrs = []
  -- an empty list is left as it is
  · have hexecute : data.execute = data := if_pos (by rw [hne]; rfl)
    refine iff_of_true ?_ fun hne' => absurd hne hne'
    unfold CommitsFixed
    rw [hexecute, hne]
    exact fixed_of_totalWeight (w := ⟨[], data.artifact, none⟩) rfl
  · have hexecute := execute_of_rounds hne hstart hrounds
    have hlast := fixed_lastState hrounds hmerged
    cases hputBack : data.restoreView.putBack (data.restoreView.lastState settled) with
    | true =>
        rw [hputBack, if_pos rfl] at hexecute
        refine iff_of_false (not_commitsFixed_of_putBack hputBack hexecute) fun hwithin => ?_
        have hkept := (hwithin hne start settled hstart hrounds).2
        rw [hputBack] at hkept
        cases hkept
    | false =>
        rw [hputBack, if_neg Bool.false_ne_true] at hexecute
        have hartifact : (data.restoreView.lastState settled).artifact.isSome =
            data.restoreView.artifact.isSome := by
          rw [isSome_lastState, isSome_rounds hrounds, start_artifact hstart, restoreView_artifact]
        have hfixed : data.CommitsFixed ↔ Fixed data.allowTrueVerifyElision data.localOptions
            (data.restoreView.lastState settled) := by
          unfold CommitsFixed Fixed
          rw [hexecute, commit_typed hartifact]
          rfl
        rw [hfixed, hlast]
        constructor
        · intro hneeded _ start' settled' hstart' hrounds'
          obtain rfl := Option.some.inj (hstart.symm.trans hstart')
          obtain rfl := Option.some.inj (hrounds.symm.trans hrounds')
          exact ⟨hneeded, hputBack⟩
        · exact fun hwithin => (hwithin hne start settled hstart hrounds).1

/-- A list as light as the limit needs no more calls, and without a true `VERIFY` it is not put back. -/
theorem withinLimit_of_light (hlight : totalWeight data.restoreView.instrs ≤ maxRounds)
    (hpair : data.allowTrueVerifyElision = true → containsTrueVerifyPair data.restoreView.instrs
      (data.restoreView.artifact.map (·.lockingScript)) = false) : data.WithinLimit := by
  intro _ start settled hstart hrounds
  have hinstrs := start_instrs hstart
  constructor
  · have hweight : totalWeight (data.lastLoopStart start settled).instrs ≤
        totalWeight start.instrs := by
      unfold lastLoopStart
      cases hmerge : mergeTails data.structuredOptions settled with
      | none => exact le_rfl
      | some merged =>
          exact (totalWeight_of_mergeTails hmerge).trans (totalWeight_of_rounds hrounds)
    rw [hinstrs] at hweight
    exact (neededCalls_le _).trans (hweight.trans hlight)
  · unfold putBack
    rw [restoreView_allowTrueVerifyElision]
    cases hallow : data.allowTrueVerifyElision with
    | true => rw [hpair hallow, Bool.and_false]
    | false => simp

end PassData

/-! ### Plain lists -/

/-- Nothing can fail where neither a typed script nor debug information is carried along. -/
theorem round_of_plain (allow : Bool) (options : LocalRewriteOptions) (v : List String) :
    round allow options ⟨v, none, none⟩ = .unchanged ∨
      ∃ v', round allow options ⟨v, none, none⟩ = .changed ⟨v', none, none⟩ := by
  cases hchanged : (runOnePass v allow options none).changed with
  | false => exact .inl (round_of_unchanged hchanged)
  | true =>
      obtain ⟨windows, hmove, -, hmap, hout⟩ := runOnePass_segment v allow options none
      have hordered := hmove.ordered.append
        (Segment.same_ordered (v.drop (optimizablePrefixLength v none)))
      obtain ⟨pcs, htable, hlength, -⟩ := reverseMapping_of_ordered hordered
      rw [← hmap, ← hout] at htable
      rw [← hout] at hlength
      have htotal : (reverseMapping (runOnePass v allow options none).oldToNew
          (runOnePass v allow options none).instructions.length).length =
            (runOnePass v allow options none).instructions.length := by
        rw [htable, List.length_map, hlength]
      exact .inr ⟨(runOnePass v allow options none).instructions, round_of_move hchanged htotal rfl⟩

theorem rounds_of_plain (allow : Bool) (options : LocalRewriteOptions) (n : ℕ) (v : List String) :
    ∃ v', rounds allow options n ⟨v, none, none⟩ = some ⟨v', none, none⟩ := by
  induction n generalizing v with
  | zero => exact ⟨v, rfl⟩
  | succ n ih =>
      rw [rounds]
      rcases round_of_plain allow options v with hround | ⟨v', hround⟩
      · exact ⟨v, by rw [hround]⟩
      · rw [hround]
        exact ih v'

theorem plain_of_mergeTails {v : List String}
    (h : mergeTails options ⟨v, none, none⟩ = some merged) :
    ∃ v', merged = ⟨v', none, none⟩ := by
  unfold mergeTails at h
  dsimp only at h
  split at h
  · exact ⟨_, (Option.some.inj h).symm⟩
  · cases h

/-- **A plain list is always carried.** -/
theorem PassData.carried_of_plain {data : PassData} (hartifact : data.artifact = none)
    (hdebug : data.debugInfo = none) : data.Carried := by
  have hstart : data.restoreView.start = some ⟨data.instrs, none, none⟩ := by
    unfold start workingDebugInfo workingArtifact restoreView
    simp [hartifact, hdebug]
  obtain ⟨v, hv⟩ := rounds_of_plain data.allowTrueVerifyElision data.localOptions maxRounds
    data.instrs
  refine ⟨_, _, hstart, hv, fun merged hmerge => ?_⟩
  obtain ⟨v', rfl⟩ := plain_of_mergeTails hmerge
  obtain ⟨v'', hv''⟩ := rounds_of_plain data.allowTrueVerifyElision data.localOptions maxRounds v'
  rw [hv'']
  rfl

/-! ### The limit -/

/-- **The pass reaches its fixed point exactly where its rounds are enough.**  Every call that reports a
change makes the list lighter.  Where no provenance rewrite fails, `execute` commits a fixed point
exactly when the last loop makes as many calls as its list needs and the old list is not put back, and
that is so for every list no heavier than the limit without a true `VERIFY` that may go. -/
theorem peephole_settles (v : List String) (allow : Bool) (options : LocalRewriteOptions)
    (artifact : Option (List BytecodeInstruction)) (data : PassData) :
    ((runOnePass v allow options artifact).changed = true →
      totalWeight (runOnePass v allow options artifact).instructions < totalWeight v) ∧
    (data.Carried → (data.CommitsFixed ↔ data.WithinLimit) ∧
      (totalWeight data.restoreView.instrs ≤ maxRounds →
        (data.allowTrueVerifyElision = true → containsTrueVerifyPair data.restoreView.instrs
          (data.restoreView.artifact.map (·.lockingScript)) = false) →
        data.CommitsFixed)) := by
  refine ⟨totalWeight_runOnePass_lt, fun hcarried => ?_⟩
  have hiff := PassData.commitsFixed_iff hcarried
  exact ⟨hiff, fun hlight hpair => hiff.2 (PassData.withinLimit_of_light hlight hpair)⟩

/-- A push and its drop, in one round. -/
theorem peephole_settles_dropped_push :
    (⟨["52", "75", "6a"], [], none, none, []⟩ : PassData).CommitsFixed :=
  ((peephole_settles [] false { knownDataPlaceholders := fun _ => none } none
    ⟨["52", "75", "6a"], [], none, none, []⟩).2 (PassData.carried_of_plain rfl rfl)).2 (by decide)
      fun _ => by decide

/-- A value for every level is pushed, and dropped after the next one: a round takes one level away. -/
def nested : ℕ → List String
  | 0 => []
  | n + 1 => "51" :: "52" :: (nested n ++ ["75", "69"])

/-- A further call changes what was committed: where the old script was put back to keep a true `VERIFY`,
and where sixteen rounds were too few. -/
theorem committed_not_fixed :
    (let data : PassData := ⟨["51", "69"], [], none, none, []⟩
     data.execute.instrs = ["51", "69"] ∧ (runOnePass data.execute.instrs
       data.allowTrueVerifyElision data.localOptions none).changed = true) ∧
    (let data : PassData := ⟨nested 9, [], none, none, []⟩
     data.execute.instrs = ["51", "52", "75", "69"] ∧ (runOnePass data.execute.instrs
       data.allowTrueVerifyElision data.localOptions none).changed = true) := by
  decide +kernel

end AtomicProof.Peephole
