/-
What the peephole pass does to the run of a script.

The pass calls `runOnePass` until nothing changes, merges the common tails of conditionals in the
executable part and calls `runOnePass` again.  Each of these preserves the run of a script of atoms that
they are correct on, and each writes only atoms that it has read and opcodes, so that what it leaves is
again such a script.  Where a step cannot be taken along in the typed script or in the debug information
it is taken back, and what is put back at the end is the script that the pass began with.

Main definitions:

* `Survives` — a property of atoms that rewriting keeps;
* `Plain` — an atom on which both rewriters are correct;
* `Declared` — the surroundings give placeholders data of their declared lengths;
* `PassData.script` — the script that the pass begins with.

Main results:

* `forall_runOnePass`, `forall_optimize` — the rewriters keep such properties;
* `PassData.execute_run` — **the pass preserves the run of a script**;
* `PassData.execute_inStep` — **the pass commits the atoms and the typed script together**.
-/

import AtomicProof.PeepholePass

set_option autoImplicit false

namespace AtomicProof.Peephole

/-! ### What rewriting keeps -/

/-- A property of atoms that rewriting keeps: opcodes have it.  The empty text stands for an atom
behind the end of a script. -/
structure Survives (P : String → Prop) : Prop where
  empty : P ""
  opcode : ∀ {op : BytOpcode}, isOneByte op = true → P (opHex op)

section Survives

variable {P : String → Prop} {v : List String} {executableEnd : ℕ} {options : LocalRewriteOptions}

theorem Survives.getD (h : Survives P) (hv : ∀ s ∈ v, P s) (i : ℕ) : P (v.getD i "") := by
  by_cases hi : i < v.length
  · exact hv _ (mem_getD hi)
  · rw [List.getD_eq_default _ _ (Nat.le_of_not_lt hi)]
    exact h.empty

/-- A rule for three atoms writes its first atom and opcodes. -/
theorem Survives.tripleRule (h : Survives P) {a b c : String} (ha : P a)
    {replacements : List ReplacementInstruction}
    (hrule : Peephole.tripleRule a b c = some replacements) :
    ∀ s ∈ replacements.map (·.encoding), P s := by
  unfold Peephole.tripleRule at hrule
  dsimp only at hrule
  split_ifs at hrule
  all_goals obtain rfl := Option.some.inj hrule
  all_goals simp only [keepFirstTriple, keepFirstThenOpTriple, List.map_cons, List.map_nil,
    List.forall_mem_cons, List.not_mem_nil, false_imp_iff, implies_true, and_true]
  all_goals first
    | exact ha
    | exact h.opcode rfl
    | exact ⟨ha, h.opcode rfl⟩

/-- A round of the scan writes atoms of the script and opcodes. -/
theorem forall_scanStep (h : Survives P) (allow : Bool) {st : Scan} (hv : ∀ s ∈ v, P s)
    (hout : ∀ s ∈ st.out, P s) :
    ∀ s ∈ (scanStep v executableEnd allow options st).out, P s := by
  have hwritten : ∀ written : List String, (∀ s ∈ written, P s) →
      ∀ s ∈ st.out ++ written, P s := by
    intro written hwritten s hs
    exact (List.mem_append.1 hs).elim (hout s) (hwritten s)
  have hread := h.getD hv
  unfold scanStep
  split
  · rename_i replacements htriple
    have heq : (applyTripleRewrite replacements st).out = st.out ++ replacements.map (·.encoding) :=
      foldl_applyReplacement_out _ _ _
    rw [heq]
    unfold tripleAt at htriple
    dsimp only at htriple
    split_ifs at htriple
    exact hwritten _ (h.tripleRule (hread _) (tripleRule_of_tryRewriteTriple htriple))
  · split_ifs
    · have heq : (applyDuplicatePush v st).out = st.out ++ [v.getD st.i "", opHex .opDup] := by
        simp [applyDuplicatePush, keepInstruction]
      rw [heq]
      exact hwritten _ (List.forall_mem_cons.2
        ⟨hread _, List.forall_mem_singleton.2 (h.opcode rfl)⟩)
    · split
      · exact hout
      · rename_i replacement hpair
        have hrule : ∃ emitted, tryRewritePair (v.getD st.i "") (v.getD (st.i + 1) "") emitted allow =
            .replacePair replacement := by
          unfold pairAt at hpair
          dsimp only at hpair
          split_ifs at hpair
          exact ⟨_, hpair⟩
        obtain ⟨emitted, hrule⟩ := hrule
        exact hwritten _ (List.forall_mem_singleton.2
          (h.opcode (writesOneByte_tryRewritePair allow _ hrule)))
      · exact hwritten _ (List.forall_mem_singleton.2 (hread _))

theorem forall_scan (h : Survives P) (allow : Bool) (hv : ∀ s ∈ v, P s) (fuel : ℕ) {st : Scan}
    (hout : ∀ s ∈ st.out, P s) :
    ∀ s ∈ (scan v executableEnd allow options fuel st).out, P s := by
  induction fuel generalizing st with
  | zero => exact hout
  | succ fuel ih =>
      rw [scan]
      split_ifs
      · exact ih (forall_scanStep h allow hv hout)
      · exact hout

theorem forall_keepRest (h : Survives P) (hv : ∀ s ∈ v, P s) (fuel : ℕ) {st : Scan}
    (hout : ∀ s ∈ st.out, P s) : ∀ s ∈ (keepRest v fuel st).out, P s := by
  induction fuel generalizing st with
  | zero => exact hout
  | succ fuel ih =>
      rw [keepRest]
      split_ifs
      · refine ih fun s hs => ?_
        rcases List.mem_append.1 hs with hs | hs
        · exact hout s hs
        · rw [List.mem_singleton.1 hs]
          exact h.getD hv _
      · exact hout

/-- **A call of `runOnePass` writes atoms of the script and opcodes.** -/
theorem forall_runOnePass (h : Survives P) (allow : Bool)
    (artifact : Option (List BytecodeInstruction)) (hv : ∀ s ∈ v, P s) :
    ∀ s ∈ (runOnePass v allow options artifact).instructions, P s := by
  unfold runOnePass
  dsimp only
  split_ifs
  · exact forall_keepRest h hv _ (forall_scan h allow hv _ (List.forall_mem_nil _))
  · exact hv

end Survives

/-- An atom on which both rewriters are correct: hexadecimal text is one instruction, and no push with a
length field is without data. -/
def Plain (s : String) : Prop := IfTail.IsAtom s ∧ NoEmptyPushdata s

instance : DecidablePred Plain := fun s => inferInstanceAs (Decidable (IfTail.IsAtom s ∧ NoEmptyPushdata s))

theorem survives_plain : Survives Plain where
  empty := by decide
  opcode := by
    intro op hop
    have hinstr := completeInstruction_of_isOp (isOp_opHex op) hop
    exact ⟨IfTail.isAtom_of_completeInstruction (by rw [hinstr]; rfl), noEmptyPushdata_opHex hop⟩

/-- The optimiser of conditionals writes atoms of the script. -/
theorem forall_optimize {P : String → Prop} {v : List String} (options : IfTail.StructuredIfTailOptions)
    (hatoms : ∀ s ∈ v, IfTail.IsAtom s) (hv : ∀ s ∈ v, P s) :
    ∀ s ∈ (IfTail.optimize v options).instructions, P s := by
  rcases IfTail.optimize_cases v options with ⟨-, h⟩ | ⟨nodes, hparse, -, h | h⟩
  · rw [h]
    exact hv
  · rw [h]
    exact hv
  · obtain ⟨hcode, -⟩ := IfTail.parse_sound hatoms hparse
    rw [← hcode] at hv
    rw [h]
    have hkeep := @IfTail.forall_optimizeSequence (fun a => P a.encoding)
      (fun k d hk _ _ => hk) nodes {} (List.forall_mem_map.1 hv)
    exact List.forall_mem_map.2 hkeep

/-! ### The run -/

variable {env : ScriptEnv}

/-- The surroundings give every placeholder data of the length that is declared for it, under both
spellings of its label. -/
def Declared (env : ScriptEnv) (lengths : List (String × ℕ)) : Prop :=
  ∀ entry ∈ lengths, ∀ label ∈ [entry.1, entry.1 ++ toString entry.2],
    ∃ payload, env.placeholder label = some payload ∧ payload.length = entry.2

theorem Declared.knownPlaceholders {data : PassData} (h : Declared env data.selfPlaceholderLengths) :
    KnownPlaceholders env data.localOptions := by
  intro label size hsize
  have hmem := List.lookup_eq_some_iff.1 hsize
  obtain ⟨before, behind, heq, -⟩ := hmem
  have hentry : (label, size) ∈ data.selfPlaceholderLengths.flatMap fun entry =>
      [entry, (entry.1 ++ toString entry.2, entry.2)] := by
    rw [heq]
    exact List.mem_append_right _ List.mem_cons_self
  obtain ⟨entry, hin, hlabel⟩ := List.mem_flatMap.1 hentry
  rcases List.mem_cons.1 hlabel with rfl | hlabel
  · exact h _ hin _ List.mem_cons_self
  · obtain ⟨rfl, rfl⟩ := Prod.mk.inj (List.mem_singleton.1 hlabel)
    exact h _ hin _ (List.mem_cons_of_mem _ List.mem_cons_self)

theorem Declared.knownLabels {data : PassData} (h : Declared env data.selfPlaceholderLengths) :
    IfTail.KnownLabels env data.structuredOptions := by
  intro label hlabel
  obtain ⟨entry, hin, hlabel⟩ := List.mem_flatMap.1 hlabel
  obtain ⟨payload, hpayload, -⟩ := h entry hin label hlabel
  rw [hpayload]
  rfl

theorem final_optimize (options : IfTail.StructuredIfTailOptions) {v : List String}
    (hatoms : ∀ s ∈ v, IfTail.IsAtom s) (hknown : IfTail.KnownLabels env options) (vm : VM) :
    final env (IfTail.optimize v options).instructions vm = final env v vm := by
  rcases IfTail.optimize_cases v options with ⟨-, h⟩ | ⟨nodes, hparse, -, h | h⟩
  · rw [h]
    rfl
  · rw [h]
  · obtain ⟨hcode, hwf⟩ := IfTail.parse_sound hatoms hparse
    rw [h, (IfTail.optimizeSequence_sound hknown nodes {} hwf).2, hcode]

/-- The atoms that the pass carries along are such atoms and run as the script does. -/
structure SameRun (env : ScriptEnv) (script : List String) (w : Working) : Prop where
  plain : ∀ s ∈ w.instrs, Plain s
  final_eq : ∀ vm, final env w.instrs vm = final env script vm

section Invariant

variable {I : Working → Prop} {allow : Bool} {options : LocalRewriteOptions} {w last : Working}

/-- What every round keeps, the rounds keep. -/
theorem invariant_rounds (hround : ∀ w next, I w → round allow options w = .changed next → I next)
    (n : ℕ) (h : I w) (hrounds : rounds allow options n w = some last) : I last := by
  induction n generalizing w with
  | zero =>
      obtain rfl := Option.some.inj hrounds
      exact h
  | succ n ih =>
      rw [rounds] at hrounds
      split at hrounds
      · obtain rfl := Option.some.inj hrounds
        exact h
      · cases hrounds
      · rename_i next hnext
        exact ih (hround w next h hnext) hrounds

theorem invariant_cleanup (hround : ∀ w next, I w → round allow options w = .changed next → I next)
    (n : ℕ) (h : I w) : I (cleanup allow options n w) := by
  induction n generalizing w with
  | zero => exact h
  | succ n ih =>
      rw [cleanup]
      split
      · rename_i next hnext
        exact ih (hround w next h hnext)
      · exact h

/-- **What every round and the merging of tails keep holds of what is committed**, where the script is
not left or put back as it was. -/
theorem invariant_run {data : PassData} {start : Working}
    (hround : ∀ w next, I w →
      round data.allowTrueVerifyElision data.localOptions w = .changed next → I next)
    (hmerge : ∀ w next, I w → mergeTails data.structuredOptions w = some next → I next)
    (hstart : I start) :
    data.run start = data ∨
      (∃ last, data.run start = data.commit ⟨data.instrs, data.artifact.or last, start.debugInfo⟩) ∨
        ∃ last, I last ∧ data.run start = data.commit last := by
  unfold PassData.run
  split
  · exact .inl rfl
  · rename_i settled hsettled
    have hlast : I (data.lastState settled) := by
      have h := invariant_rounds hround _ hstart hsettled
      unfold PassData.lastState
      split
      · rename_i merged hmerged
        exact invariant_cleanup hround _ (hmerge _ _ h hmerged)
      · exact h
    dsimp only
    split_ifs
    · exact .inr (.inl ⟨_, rfl⟩)
    · exact .inr (.inr ⟨_, hlast, rfl⟩)

end Invariant

namespace SameRun

variable {script : List String} {w next : Working}

/-- **A round preserves the run.** -/
theorem round {options : LocalRewriteOptions} (h : SameRun env script w)
    (hknown : KnownPlaceholders env options) {allow : Bool}
    (hround : Peephole.round allow options w = .changed next) : SameRun env script next := by
  obtain ⟨-, hmove⟩ := move_of_round hround
  obtain ⟨hinstrs, -⟩ := fields_of_move hmove
  constructor
  · rw [hinstrs]
    exact forall_runOnePass survives_plain allow _ h.plain
  · intro vm
    rw [hinstrs, (runOnePass_inv env allow _ (fun s hs => (h.plain s hs).2) hknown).2, h.final_eq]

/-- Merging the tails of the executable part preserves the run of the whole. -/
theorem mergeTails (h : SameRun env script w) {options : IfTail.StructuredIfTailOptions}
    (hknown : IfTail.KnownLabels env options) (hmerge : Peephole.mergeTails options w = some next) :
    SameRun env script next := by
  unfold Peephole.mergeTails at hmerge
  dsimp only at hmerge
  split_ifs at hmerge
  obtain ⟨hinstrs, -⟩ := fields_of_move hmerge
  set e := optimizablePrefixLength w.instrs w.typed
  have hplain : ∀ s ∈ w.instrs.take e, Plain s := fun s hs => h.plain s (List.mem_of_mem_take hs)
  have hatoms : ∀ s ∈ w.instrs.take e, IfTail.IsAtom s := fun s hs => (hplain s hs).1
  constructor
  · rw [hinstrs]
    intro s hs
    rcases List.mem_append.1 hs with hs | hs
    · exact forall_optimize options hatoms hplain s hs
    · exact h.plain s (List.mem_of_mem_drop hs)
  · intro vm
    have hprefix := final_congr [] (w.instrs.drop e) (final_optimize options hatoms hknown) vm
    rw [List.nil_append, List.nil_append, List.take_append_drop] at hprefix
    rw [hinstrs, hprefix, h.final_eq]

end SameRun

namespace PassData

/-- The script that the pass begins with: a stale view is restored first, an empty one is not looked
at. -/
def script (data : PassData) : List String :=
  if data.instrs.isEmpty then data.instrs else data.restoreView.instrs

theorem restoreView_selfPlaceholderLengths (data : PassData) :
    data.restoreView.selfPlaceholderLengths = data.selfPlaceholderLengths := by
  unfold restoreView
  split <;> rfl

/-- **The pass preserves the run of a script**: of every script of instructions and placeholders, none
of them a push with a length field and no data, in surroundings that give every placeholder data of the
length that is declared for it.  The rounds, the merging of tails and whatever is taken back are all
part of it. -/
theorem execute_run (env : ScriptEnv) (data : PassData) (hplain : ∀ s ∈ data.script, Plain s)
    (hdeclared : Declared env data.selfPlaceholderLengths) (main alt : Stack) :
    outcome env data.execute.instrs main alt = outcome env data.script main alt := by
  unfold script at hplain ⊢
  unfold execute
  split_ifs with hempty
  · rfl
  · rw [if_neg hempty] at hplain
    rw [← restoreView_selfPlaceholderLengths] at hdeclared
    split
    · rfl
    · rename_i start hstart
      have hsame : SameRun env data.restoreView.instrs start := by
        constructor
        · rwa [start_instrs hstart]
        · intro vm
          rw [start_instrs hstart]
      rcases invariant_run (fun _ _ h => h.round hdeclared.knownPlaceholders)
        (fun _ _ h => h.mergeTails hdeclared.knownLabels) hsame with hrun | ⟨_, hrun⟩ | ⟨last, hlast, hrun⟩
      · rw [hrun]
      · rw [hrun]
        rfl
      · rw [hrun, outcome, outcome]
        exact congrArg (Option.map _) (hlast.final_eq _)

end PassData

/-- A branch that pushes twice and one that pushes once end in the same placeholder, in front of a
suffix: the tail moves behind the conditional. -/
theorem execute_run_sharedTail :
    let env : ScriptEnv := { ScriptEnv.plain with
      placeholder label := if label = "self.x" ∨ label = "self.x2" then some [0x01, 0x02] else none }
    let data : PassData :=
      ⟨["63", "52", "75", "<self.x>", "67", "75", "<self.x>", "68", "6a", "00"], [], none, none,
        [("self.x", 2)]⟩
    data.execute.instrs = ["63", "67", "75", "68", "<self.x>", "6a", "00"] ∧
      ∀ main alt, outcome env data.execute.instrs main alt =
        outcome env ["63", "52", "75", "<self.x>", "67", "75", "<self.x>", "68", "6a", "00"] main alt :=
  ⟨by decide +kernel, PassData.execute_run _ ⟨_, [], none, none, [("self.x", 2)]⟩ (by decide)
    (by
      intro entry hentry label hlabel
      rw [List.mem_singleton.1 hentry] at hlabel ⊢
      refine ⟨[0x01, 0x02], if_pos ?_, rfl⟩
      rcases List.mem_cons.1 hlabel with rfl | hlabel
      · exact .inl rfl
      · exact .inr (List.mem_singleton.1 hlabel))⟩

/-! ### The typed script -/

section Typed

open BytecodeArtifactRewriter (InStep NumbersFit inStep_of_rewrite rewrite)
open LegacyBytecodeAdapter (exportPreserving)

/-- The typed script that is carried along is the text of the atoms. -/
def Working.InStep (w : Working) : Prop :=
  ∃ artifact, w.artifact = some artifact ∧ BytecodeArtifactRewriter.InStep artifact w.instrs

/-- **A move keeps the typed script in step.** -/
theorem Working.InStep.move {w next : Working} (h : w.InStep) {instrs : List String}
    {oldToNew : List (Option ℕ)} {newToOld : List (List ℕ)}
    {origins : List (List ApcDebug.OriginRewriteRef)}
    (hmove : w.move instrs oldToNew newToOld origins = some next) : next.InStep := by
  obtain ⟨old, hold, hstep⟩ := h
  unfold Working.move at hmove
  obtain ⟨artifact, hartifact, hmove⟩ := Option.bind_eq_some_iff.1 hmove
  obtain ⟨debugInfo, -, hmove⟩ := Option.bind_eq_some_iff.1 hmove
  obtain rfl := Option.some.inj hmove
  rw [hold, applyArtifactRewrite] at hartifact
  obtain ⟨new, hnew, rfl⟩ := Option.map_eq_some_iff.1 hartifact
  cases hrewrite : rewrite old instrs newToOld with
  | error error =>
      rw [hrewrite] at hnew
      cases hnew
  | ok result =>
      rw [hrewrite] at hnew
      obtain rfl := Option.some.inj hnew
      exact ⟨result, rfl, inStep_of_rewrite hstep.numbers hrewrite⟩

/-- **The pass commits the atoms and the typed script together**: whatever it does, takes back or puts
back, the typed script that it leaves is the text of the atoms that it leaves.  A stale view is replaced
by that text; only an empty one is left as it is. -/
theorem PassData.execute_inStep {data : PassData} {artifact : BytecodeArtifact}
    (hne : data.instrs.isEmpty = false) (hartifact : data.artifact = some artifact)
    (hids : (artifact.lockingScript.map (·.id)).Nodup)
    (hnumbers : ∀ i ∈ artifact.lockingScript, NumbersFit i) :
    ∃ committed, data.execute.artifact = some committed ∧ InStep committed data.execute.instrs := by
  have hview : data.restoreView.artifact = some artifact ∧
      InStep artifact data.restoreView.instrs := by
    unfold restoreView
    rw [hartifact]
    exact ⟨rfl, rfl, hids, hnumbers⟩
  obtain ⟨hsome, hstep⟩ := hview
  unfold execute
  rw [if_neg (by simp [hne])]
  split
  · exact ⟨artifact, hsome, hstep⟩
  · rename_i start hstart
    have hstartStep : start.InStep := by
      refine ⟨artifact, ?_, ?_⟩
      · obtain ⟨debugInfo, -, heq⟩ := Option.bind_eq_some_iff.1 hstart
        rw [← Option.some.inj heq]
        show data.restoreView.workingArtifact = some artifact
        have hlength := congrArg List.length hstep.exported
        rw [exportPreserving, List.length_map] at hlength
        rw [workingArtifact, hsome, Option.filter_some, if_pos (by simpa using hlength)]
      · rwa [start_instrs hstart]
    have hround : ∀ w next, Working.InStep w →
        round data.restoreView.allowTrueVerifyElision data.restoreView.localOptions w =
          .changed next → next.InStep := fun w next h hround => h.move (move_of_round hround).2
    have hmerge : ∀ w next, Working.InStep w →
        mergeTails data.restoreView.structuredOptions w = some next → next.InStep := by
      intro w next h hmerge
      unfold mergeTails at hmerge
      dsimp only at hmerge
      split_ifs at hmerge
      exact h.move hmerge
    rcases invariant_run hround hmerge hstartStep with hrun | ⟨last, hrun⟩ | ⟨last, hlast, hrun⟩
    · rw [hrun]
      exact ⟨artifact, hsome, hstep⟩
    · rw [hrun]
      refine ⟨artifact, ?_, hstep⟩
      rw [commit, hsome]
      rfl
    · obtain ⟨committed, hcommitted, hcommittedStep⟩ := hlast
      rw [hrun]
      refine ⟨committed, ?_, hcommittedStep⟩
      rw [commit, hsome, hcommitted]
      rfl

/-- A stale view of a typed script with a dropped push. -/
theorem PassData.execute_inStep_stale :
    let artifact : BytecodeArtifact :=
      ⟨.legacyV1, [⟨4, .opcode 0x52, .executable, [], some "52"⟩,
        ⟨7, .opcode 0x75, .executable, [], some "75"⟩,
        ⟨9, .opcode 0x53, .executable, [], some "53"⟩], [], [], ⟨none, false⟩⟩
    let data : PassData := ⟨["51"], [], some artifact, none, []⟩
    data.execute.instrs = ["53"] ∧
      ∃ committed, data.execute.artifact = some committed ∧ InStep committed data.execute.instrs :=
  ⟨by decide +kernel, PassData.execute_inStep rfl rfl (by decide) (by decide)⟩

end Typed

end AtomicProof.Peephole
