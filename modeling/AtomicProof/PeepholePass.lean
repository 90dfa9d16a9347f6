/-
The peephole pass as a whole.

`BytecodePeepholePass::execute` in `src/src/bytecode_peephole_pass.h` runs `runOnePass` until it reports
no change, at most sixteen times, then merges the common tails of conditionals and runs it again.  The
typed script and the debug information are moved along after every call; where one of them cannot be
moved the call is taken back.  A script that would lose its last byte to the rule for a true `VERIFY` is
put back as it was.

Main definitions:

* `Working`, `round`, `rounds` — what the pass carries along, a round, the rounds;
* `mergeTails`, `cleanup` — the common tails of conditionals;
* `execute` — the pass;
* `FaithfulMap` — what the map of one call says.

Main results:

* `map_faithful` — **the map of every call is faithful, and a consistent typed script is moved along
  through all rounds**.
-/

import AtomicProof.IfTailDebug
import AtomicProof.PeepholeMap
import AtomicProof.RewriterTotal

set_option autoImplicit false

namespace AtomicProof.Peephole

open ApcDebug (DebugInfo OriginRewriteRef)
open BytecodeArtifactRewriter (Consistent rewrite reverseMapping)
open LegacyBytecodeAdapter (exportPreserving)

/-! ### Rounds -/

/-- What `execute` carries along. -/
structure Working where
  instrs : List String
  artifact : Option BytecodeArtifact
  debugInfo : Option DebugInfo

/-- The typed script that `runOnePass` looks at. -/
def Working.typed (w : Working) : Option (List BytecodeInstruction) :=
  w.artifact.map (·.lockingScript)

/-- `applyArtifactRewrite`; `none` where it fails. -/
def applyArtifactRewrite (artifact : Option BytecodeArtifact) (rewritten : List String)
    (newToOld : List (List ℕ)) : Option (Option BytecodeArtifact) :=
  match artifact with
  | none => some none
  | some artifact => (rewrite artifact rewritten newToOld).toOption.map some

/-- The debug information moved along; `none` where it cannot be. -/
def moveDebugInfo (debugInfo : Option DebugInfo) (instrs : List String)
    (oldToNew : List (Option ℕ)) (origins : List (List OriginRewriteRef)) :
    Option (Option DebugInfo) :=
  match debugInfo with
  | none => some none
  | some info =>
      (info.remapped oldToNew instrs.length origins).map fun moved =>
        some (moved.syncInstructionOpcodes instrs)

/-- The typed script and the debug information moved along with the atoms. -/
def Working.move (w : Working) (instrs : List String) (oldToNew : List (Option ℕ))
    (newToOld : List (List ℕ)) (origins : List (List OriginRewriteRef)) : Option Working := do
  let artifact ← applyArtifactRewrite w.artifact instrs newToOld
  let debugInfo ← moveDebugInfo w.debugInfo instrs oldToNew origins
  return ⟨instrs, artifact, debugInfo⟩

/-- What a round of the loops of `execute` comes to. -/
inductive RoundResult
  | unchanged
  | failed
  | changed (next : Working)

/-- A round of the loops of `execute`. -/
def round (allow : Bool) (options : LocalRewriteOptions) (w : Working) : RoundResult :=
  let result := runOnePass w.instrs allow options w.typed
  if result.changed then
    let newToOld := reverseMapping result.oldToNew result.instructions.length
    if newToOld.length ≠ result.instructions.length then .failed
    else
      match w.move result.instructions result.oldToNew newToOld [] with
      | some next => .changed next
      | none => .failed
  else .unchanged

/-- The fixed-point loop of `execute`; `none` where `localMappingFailed`. -/
def rounds (allow : Bool) (options : LocalRewriteOptions) : ℕ → Working → Option Working
  | 0, w => some w
  | n + 1, w =>
      match round allow options w with
      | .unchanged => some w
      | .failed => none
      | .changed next => rounds allow options n next

/-- The loop of `execute` after the tails were merged; a failure ends it. -/
def cleanup (allow : Bool) (options : LocalRewriteOptions) : ℕ → Working → Working
  | 0, w => w
  | n + 1, w =>
      match round allow options w with
      | .changed next => cleanup allow options n next
      | _ => w

/-! ### The pass -/

/-- The state after the common tails were merged; `none` where nothing was merged, or what was merged
cannot be moved along. -/
def mergeTails (options : IfTail.StructuredIfTailOptions) (w : Working) : Option Working :=
  let executableEnd := optimizablePrefixLength w.instrs w.typed
  let structured := IfTail.optimize (w.instrs.take executableEnd) options
  if structured.structurallyValid && structured.changed && structured.rewritePlanValid then
    let newExecutableEnd := structured.instructions.length
    let behind := (List.range (w.instrs.length - executableEnd)).map (executableEnd + ·)
    let fullOldToNew := structured.rewritePlan.oldToNew ++
      behind.map fun oldPC => some (newExecutableEnd + (oldPC - executableEnd))
    let artifactOrigins := structured.rewritePlan.newToOld.map (·.map (·.oldPC)) ++
      behind.map fun oldPC => [oldPC]
    let debugOrigins := structured.rewritePlan.newToOld.map (·.map IfTail.toReference) ++
      behind.map fun oldPC => [⟨oldPC, []⟩]
    w.move (structured.instructions ++ w.instrs.drop executableEnd) fullOldToNew artifactOrigins
      debugOrigins
  else none

def countBytes (v : List String) : ℕ :=
  (v.map fun s => if isPureHex s then s.toList.length / 2 else 0).sum

def executableBytes (v : List String) (artifact : Option (List BytecodeInstruction)) : ℕ :=
  countBytes (v.take (optimizablePrefixLength v artifact))

def containsTrueVerifyPair (v : List String) (artifact : Option (List BytecodeInstruction)) : Bool :=
  let executable := v.take (optimizablePrefixLength v artifact)
  (executable.zip executable.tail).any fun window =>
    isOp window.1 .op1 && isOp window.2 .opVerify

/-- The data of the pass: the atoms, the unlocking scripts, the typed script, the debug information and
the lengths of placeholders, in the order in which they are read. -/
structure PassData where
  instrs : List String
  unlockingScripts : List (String × String)
  artifact : Option BytecodeArtifact
  debugInfo : Option DebugInfo
  selfPlaceholderLengths : List (String × ℕ)

namespace PassData

/-- A stale view is restored from the typed script. -/
def restoreView (data : PassData) : PassData :=
  match data.artifact with
  | none => data
  | some artifact =>
      { data with
        instrs := (exportPreserving artifact).1
        unlockingScripts :=
          if (exportPreserving artifact).1 = data.instrs then data.unlockingScripts
          else (exportPreserving artifact).2 }

def localOptions (data : PassData) : LocalRewriteOptions where
  knownDataPlaceholders label :=
    (data.selfPlaceholderLengths.flatMap fun entry =>
      [entry, (entry.1 ++ toString entry.2, entry.2)]).lookup label
  pushEncodingPolicy :=
    if data.artifact.any (·.format = .canonicalV2) then .canonical else .legacy

def structuredOptions (data : PassData) : IfTail.StructuredIfTailOptions where
  knownDataPlaceholderLabels :=
    data.selfPlaceholderLengths.flatMap fun entry => [entry.1, entry.1 ++ toString entry.2]

def allowTrueVerifyElision (data : PassData) : Bool := data.debugInfo.isNone

/-- `workingDebugInfo`; `none` where the debug information cannot be copied. -/
def workingDebugInfo (data : PassData) : Option (Option DebugInfo) :=
  match data.debugInfo with
  | none => some none
  | some info => info.fromJson.map some

def workingArtifact (data : PassData) : Option BytecodeArtifact :=
  data.artifact.filter fun artifact => artifact.lockingScript.length = data.instrs.length

def start (data : PassData) : Option Working := do
  let debugInfo ← data.workingDebugInfo
  return ⟨data.instrs, data.workingArtifact, debugInfo⟩

def putBack (data : PassData) (last : Working) : Bool :=
  data.allowTrueVerifyElision &&
    executableBytes data.instrs (data.artifact.map (·.lockingScript)) != 0 &&
    executableBytes last.instrs last.typed == 0 &&
    containsTrueVerifyPair data.instrs (data.artifact.map (·.lockingScript))

def commit (data : PassData) (last : Working) : PassData :=
  { data with
    instrs := last.instrs
    artifact := if data.artifact.isSome && last.artifact.isSome then last.artifact else data.artifact
    debugInfo :=
      if data.debugInfo.isSome && last.debugInfo.isSome then last.debugInfo else data.debugInfo }

def lastState (data : PassData) (settled : Working) : Working :=
  match mergeTails data.structuredOptions settled with
  | some merged => cleanup data.allowTrueVerifyElision data.localOptions maxRounds merged
  | none => settled

/-- The rounds and what comes after them, from a start. -/
def run (data : PassData) (start : Working) : PassData :=
  match rounds data.allowTrueVerifyElision data.localOptions maxRounds start with
  | none => data
  | some settled =>
      let last := data.lastState settled
      if data.putBack last then
        data.commit ⟨data.instrs, data.artifact.or last.artifact, start.debugInfo⟩
      else data.commit last

def execute (data : PassData) : PassData :=
  if data.instrs.isEmpty then data
  else
    match data.restoreView.start with
    | none => data.restoreView
    | some start => data.restoreView.run start

theorem start_instrs {data : PassData} {start : Working} (h : data.start = some start) :
    start.instrs = data.instrs := by
  obtain ⟨debugInfo, -, hsome⟩ := Option.bind_eq_some_iff.1 h
  rw [← Option.some.inj hsome]

end PassData

/-! ### The map of a call -/

/-- **The map of a call is faithful**: on the atoms that are kept it is a strictly increasing bijection
onto the new ones, control instructions are kept, the atoms behind the executable part move together,
and a call that reports no change changes nothing. -/
structure FaithfulMap (v : List String) (executableEnd : ℕ) (r : PassResult) : Prop where
  length : r.oldToNew.length = v.length
  increasing : ∀ (i j m n : ℕ), i < j → r.oldToNew[i]? = some (some m) →
    r.oldToNew[j]? = some (some n) → m < n
  onto : ∀ n, n < r.instructions.length ↔ ∃ i : ℕ, r.oldToNew[i]? = some (some n)
  control : ∀ (i : ℕ) s, v[i]? = some s → IsControl s →
    ∃ (n : ℕ) (t : String), r.oldToNew[i]? = some (some n) ∧ r.instructions[n]? = some t ∧
      SameControl s t
  behind : ∀ i, executableEnd ≤ i → i < v.length →
    r.oldToNew[i]? = some (some (i - (v.length - r.instructions.length))) ∧
      r.instructions[i - (v.length - r.instructions.length)]? = v[i]?
  unchanged : r.changed = false →
    r.instructions = v ∧ r.oldToNew = (List.range v.length).map some

theorem runOnePass_faithful (v : List String) (allow : Bool) (options : LocalRewriteOptions)
    (artifact : Option (List BytecodeInstruction)) :
    FaithfulMap v (optimizablePrefixLength v artifact) (runOnePass v allow options artifact) := by
  obtain ⟨windows, hmove, hconsumed, hmap, hout⟩ := runOnePass_segment v allow options artifact
  have hend := optimizablePrefixLength_le v artifact
  set whole := windows.append (Segment.same (v.drop (optimizablePrefixLength v artifact)))
    with hwhole
  have hall : Move whole ((runOnePass v allow options artifact).changed || false) :=
    hmove.append (move_same _)
  have hv : whole.consumed = v := by
    show windows.consumed ++ v.drop _ = v
    rw [hconsumed, List.take_append_drop]
  have hlength : windows.consumed.length = optimizablePrefixLength v artifact := by
    rw [hconsumed, List.length_take, min_eq_left hend]
  refine ⟨?_, ?_, ?_, ?_, ?_, ?_⟩
  · rw [hmap, hall.ordered.length, hv]
  · intro i j m n hij hi hj
    rw [hmap] at hi hj
    exact hall.ordered.lt hij hi hj
  · intro n
    rw [hout, hmap]
    exact hall.ordered.onto n
  · intro i s hs hcontrol
    rw [hout, hmap]
    exact hall.keeps i s (hv ▸ hs) hcontrol
  · intro i hle hlt
    have hrest : (v.drop (optimizablePrefixLength v artifact)).length =
        v.length - optimizablePrefixLength v artifact := List.length_drop ..
    have hplace := Segment.append_same_place hmove.ordered
      (v.drop (optimizablePrefixLength v artifact)) (hlength ▸ hle) (by rw [hlength, hrest]; omega)
    have hle' := hmove.ordered.emitted_le
    have hremoved : v.length - (runOnePass v allow options artifact).instructions.length =
        windows.consumed.length - windows.emitted.length := by
      rw [hout]
      show v.length - (windows.emitted ++ v.drop _).length = _
      rw [List.length_append, hrest, hlength] at *
      omega
    rw [hremoved, hmap, hout]
    rw [hv] at hplace
    exact hplace
  · intro hchanged
    rw [hchanged] at hall
    have hsame := hall.same rfl
    rw [hv] at hsame
    rw [hout, hmap, hsame]
    exact ⟨rfl, rfl⟩

/-! ### The typed script through the rounds -/

/-- A new place of an ordered map has one source. -/
theorem placesOf_eq_singleton {s : Segment String} (h : s.Ordered) {pc n : ℕ}
    (hpc : s.places[pc]? = some (some n)) :
    BytecodeArtifactRewriter.placesOf s.places 0 n = [pc] := by
  have hmem : ∀ other, other ∈ BytecodeArtifactRewriter.placesOf s.places 0 n ↔ other = pc := by
    intro other
    have hsource : other ∈ BytecodeArtifactRewriter.placesOf s.places 0 n ↔
        s.places[other]? = some (some n) := by
      simp [BytecodeArtifactRewriter.placesOf, List.mem_zipIdx_iff_getElem?]
    rw [hsource]
    constructor
    · intro hother
      rcases Nat.lt_trichotomy other pc with hlt | heq | hlt
      · exact absurd (h.lt hlt hother hpc) (lt_irrefl _)
      · exact heq
      · exact absurd (h.lt hlt hpc hother) (lt_irrefl _)
    · rintro rfl
      exact hpc
  have hnodup : (BytecodeArtifactRewriter.placesOf s.places 0 n).Nodup := by
    refine List.Nodup.sublist (List.filter_sublist.map _) ?_
    rw [List.zipIdx_map_snd]
    exact List.nodup_range'
  refine List.perm_singleton.1 ((List.perm_ext_iff_of_nodup hnodup (List.nodup_singleton _)).2 ?_)
  intro other
  rw [hmem, List.mem_singleton]

/-- The table of an ordered map has one source for every new place. -/
theorem reverseMapping_of_ordered {s : Segment String} (h : s.Ordered) :
    ∃ pcs : List ℕ, reverseMapping s.places s.emitted.length = pcs.map ([·]) ∧
      pcs.length = s.emitted.length ∧ pcs.Nodup ∧ ∀ pc ∈ pcs, pc < s.consumed.length := by
  have hplace : ∀ n, ∃ pc : ℕ, n < s.emitted.length → s.places[pc]? = some (some n) := by
    intro n
    by_cases hn : n < s.emitted.length
    · obtain ⟨pc, hpc⟩ := (h.onto n).1 hn
      exact ⟨pc, fun _ => hpc⟩
    · exact ⟨0, fun hn' => absurd hn' hn⟩
  choose source hsource using hplace
  refine ⟨(List.range s.emitted.length).map source, ?_, by simp, ?_, ?_⟩
  · have hinRange : ∀ newPC, some newPC ∈ s.places → newPC < s.emitted.length := by
      intro newPC hmem
      obtain ⟨i, hi⟩ := List.mem_iff_getElem?.1 hmem
      exact (h.onto newPC).2 ⟨i, hi⟩
    rw [(BytecodeArtifactRewriter.reverseMapping_spec _ _).1 hinRange, List.map_map]
    refine List.map_congr_left fun n hn => ?_
    exact placesOf_eq_singleton h (hsource n (List.mem_range.1 hn))
  · refine (List.nodup_map_iff_inj_on List.nodup_range).2 ?_
    intro m hm n hn heq
    have hm' := hsource m (List.mem_range.1 hm)
    have hn' := hsource n (List.mem_range.1 hn)
    rw [heq, hn'] at hm'
    exact (Option.some.inj (Option.some.inj hm')).symm
  · intro pc hpc
    obtain ⟨n, hn, rfl⟩ := List.mem_map.1 hpc
    have hlt := (List.getElem?_eq_some_iff.1 (hsource n (List.mem_range.1 hn))).1
    rwa [h.length] at hlt

variable {allow : Bool} {options : LocalRewriteOptions} {w next : Working}

theorem round_of_unchanged (h : (runOnePass w.instrs allow options w.typed).changed = false) :
    round allow options w = .unchanged := by
  unfold round
  simp only [h, Bool.false_eq_true, if_false]

theorem changed_of_round (h : round allow options w = .unchanged) :
    (runOnePass w.instrs allow options w.typed).changed = false := by
  by_contra hchanged
  rw [Bool.not_eq_false] at hchanged
  unfold round at h
  simp only [hchanged, if_true] at h
  split_ifs at h
  split at h <;> cases h

theorem round_of_move (h : (runOnePass w.instrs allow options w.typed).changed = true)
    (hlength : (reverseMapping (runOnePass w.instrs allow options w.typed).oldToNew
      (runOnePass w.instrs allow options w.typed).instructions.length).length =
        (runOnePass w.instrs allow options w.typed).instructions.length)
    (hmove : w.move (runOnePass w.instrs allow options w.typed).instructions
      (runOnePass w.instrs allow options w.typed).oldToNew
      (reverseMapping (runOnePass w.instrs allow options w.typed).oldToNew
        (runOnePass w.instrs allow options w.typed).instructions.length) [] = some next) :
    round allow options w = .changed next := by
  unfold round
  simp only [h, if_true, hlength, ne_eq, not_true_eq_false, if_false, hmove]

/-- A round that changes something moves what the call of `runOnePass` made. -/
theorem move_of_round (h : round allow options w = .changed next) :
    (runOnePass w.instrs allow options w.typed).changed = true ∧
      w.move (runOnePass w.instrs allow options w.typed).instructions
        (runOnePass w.instrs allow options w.typed).oldToNew
        (reverseMapping (runOnePass w.instrs allow options w.typed).oldToNew
          (runOnePass w.instrs allow options w.typed).instructions.length) [] = some next := by
  unfold round at h
  by_cases hchanged : (runOnePass w.instrs allow options w.typed).changed = true
  · refine ⟨hchanged, ?_⟩
    simp only [hchanged, if_true] at h
    split_ifs at h
    split at h
    · rename_i moved hmove
      obtain rfl := RoundResult.changed.inj h
      exact hmove
    · cases h
  · rw [Bool.not_eq_true] at hchanged
    simp only [hchanged, Bool.false_eq_true, if_false] at h
    cases h

/-- What a move leaves: the atoms, and a typed script where there was one. -/
theorem fields_of_move {instrs : List String} {oldToNew : List (Option ℕ)}
    {newToOld : List (List ℕ)} {origins : List (List OriginRewriteRef)}
    (h : w.move instrs oldToNew newToOld origins = some next) :
    next.instrs = instrs ∧ next.artifact.isSome = w.artifact.isSome := by
  unfold Working.move at h
  obtain ⟨artifact, hartifact, h⟩ := Option.bind_eq_some_iff.1 h
  obtain ⟨debugInfo, -, h⟩ := Option.bind_eq_some_iff.1 h
  obtain rfl := Option.some.inj h
  refine ⟨rfl, ?_⟩
  show artifact.isSome = _
  unfold applyArtifactRewrite at hartifact
  cases hw : w.artifact with
  | none =>
      rw [hw] at hartifact
      rw [← Option.some.inj hartifact]
  | some old =>
      rw [hw] at hartifact
      obtain ⟨new, -, rfl⟩ := Option.map_eq_some_iff.1 hartifact
      rfl

/-- A round moves a consistent typed script along. -/
theorem round_consistent (allow : Bool) (options : LocalRewriteOptions)
    {artifact : BytecodeArtifact} (hartifact : w.artifact = some artifact)
    (hdebug : w.debugInfo = none) (h : Consistent artifact w.instrs) :
    round allow options w = .unchanged ∨ ∃ next artifact', round allow options w = .changed next ∧
      next.artifact = some artifact' ∧ next.debugInfo = none ∧ Consistent artifact' next.instrs := by
  by_cases hchanged : (runOnePass w.instrs allow options w.typed).changed = true
  · obtain ⟨windows, hmove, hconsumed, hmap, hout⟩ :=
      runOnePass_segment w.instrs allow options w.typed
    have hordered := hmove.ordered.append
      (Segment.same_ordered (w.instrs.drop (optimizablePrefixLength w.instrs w.typed)))
    obtain ⟨pcs, htable, hlength, hnodup, hrange⟩ := reverseMapping_of_ordered hordered
    rw [← hmap, ← hout] at htable
    rw [← hout] at hlength
    have hconsumed' : (windows.append (Segment.same
        (w.instrs.drop (optimizablePrefixLength w.instrs w.typed)))).consumed = w.instrs := by
      show windows.consumed ++ _ = _
      rw [hconsumed]
      exact List.take_append_drop _ _
    rw [hconsumed'] at hrange
    obtain ⟨artifact', hok, hconsistent⟩ :=
      BytecodeArtifactRewriter.rewrite_single h hlength hnodup hrange
    refine .inr ⟨⟨_, some artifact', none⟩, artifact', ?_, rfl, rfl, hconsistent⟩
    refine round_of_move hchanged ?_ ?_
    · rw [htable, List.length_map, hlength]
    · rw [htable, Working.move, hartifact, hdebug, applyArtifactRewrite, hok]
      rfl
  · rw [Bool.not_eq_true] at hchanged
    exact .inl (round_of_unchanged hchanged)

/-- **A consistent typed script is moved along through all rounds.** -/
theorem rounds_consistent (allow : Bool) (options : LocalRewriteOptions) (n : ℕ)
    {artifact : BytecodeArtifact} (hartifact : w.artifact = some artifact)
    (hdebug : w.debugInfo = none) (h : Consistent artifact w.instrs) :
    ∃ last artifact', rounds allow options n w = some last ∧ last.artifact = some artifact' ∧
      Consistent artifact' last.instrs := by
  induction n generalizing w artifact with
  | zero => exact ⟨w, artifact, rfl, hartifact, h⟩
  | succ n ih =>
      rcases round_consistent allow options hartifact hdebug h with hround | hround
      · rw [rounds, hround]
        exact ⟨w, artifact, rfl, hartifact, h⟩
      · obtain ⟨next, artifact', hround, hartifact', hdebug', hconsistent⟩ := hround
        rw [rounds, hround]
        exact ih hartifact' hdebug' hconsistent

/-- **The map of every call of `runOnePass` is faithful, and a typed script that is consistent with the
list is moved along by the maps of any number of rounds.** -/
theorem map_faithful (v : List String) (allow : Bool) (options : LocalRewriteOptions) :
    (∀ artifact, FaithfulMap v (optimizablePrefixLength v artifact)
      (runOnePass v allow options artifact)) ∧
    ∀ artifact, Consistent artifact v → ∀ n, ∃ last artifact',
      rounds allow options n ⟨v, some artifact, none⟩ = some last ∧
        last.artifact = some artifact' ∧ Consistent artifact' last.instrs :=
  ⟨runOnePass_faithful v allow options, fun _ h n => rounds_consistent allow options n rfl rfl h⟩

/-- A dropped push and a negated condition, in two rounds. -/
theorem map_faithful_condition :
    Consistent (LegacyBytecodeAdapter.importLegacy ["87", "91", "63", "52", "75", "68", "6a"] [])
      ["87", "91", "63", "52", "75", "68", "6a"] ∧
    ∃ last artifact', rounds true ⟨fun _ => none, .legacy⟩ 2
        ⟨["87", "91", "63", "52", "75", "68", "6a"], some (LegacyBytecodeAdapter.importLegacy
          ["87", "91", "63", "52", "75", "68", "6a"] []), none⟩ = some last ∧
      last.artifact = some artifact' ∧ Consistent artifact' last.instrs := by
  have hconsistent : Consistent
      (LegacyBytecodeAdapter.importLegacy ["87", "91", "63", "52", "75", "68", "6a"] [])
      ["87", "91", "63", "52", "75", "68", "6a"] :=
    BytecodeArtifactRewriter.consistent_importLegacy [] (by decide)
  exact ⟨hconsistent, (map_faithful _ true ⟨fun _ => none, .legacy⟩).2 _ hconsistent 2⟩

end AtomicProof.Peephole
