/-
The map of the peephole pass.

`runOnePass` records for every atom of the script the place of the atom that stands for it afterwards.
The atoms of the executable part are read in windows of one, two or three; each window is a segment, and
the whole pass is the segments put together, with the atoms behind the executable part kept as they are.

Main definitions:

* `IsControl`, `SameControl` — the control instructions, and what one may turn into;
* `totalWeight` — two for an atom, one for `OP_DUP`;
* `Move` — what every window does;
* `Reads` — the scan has read the script up to its place.

Main results:

* `scanStep_reads` — **a round of the scan reads one window**;
* `runOnePass_segment` — one call of `runOnePass` is one segment;
* `totalWeight_runOnePass_lt` — **a call that changes the script makes it lighter**.
-/

import AtomicProof.PeepholeSound
import AtomicProof.Segment

set_option autoImplicit false

namespace AtomicProof.Peephole

/-! ### Windows -/

/-- The control instructions that the pass keeps. -/
def controlOpcodes : List BytOpcode := [.opReturn, .opIf, .opNotif, .opElse, .opEndif]

/-- An atom that is a control instruction. -/
def IsControl (s : String) : Prop := ∃ op ∈ controlOpcodes, isOp s op = true

/-- An atom stands for another: it is the same, or the condition was inverted. -/
def SameControl (s t : String) : Prop :=
  s = t ∨ (isOp s .opIf = true ∧ isOp t .opNotif = true) ∨
    (isOp s .opNotif = true ∧ isOp t .opIf = true)

def weight (s : String) : ℕ := if isOpDup s then 1 else 2

def totalWeight (script : List String) : ℕ := (script.map weight).sum

/-- What a window does: its places are in order, control instructions are kept, and it gets lighter or
stays the same. -/
structure Move (s : Segment String) (changed : Bool) : Prop where
  ordered : s.Ordered
  keeps : s.Keeps IsControl SameControl
  lighter : changed = true → totalWeight s.emitted < totalWeight s.consumed
  same : changed = false → s = Segment.same s.consumed

theorem totalWeight_append (xs ys : List String) :
    totalWeight (xs ++ ys) = totalWeight xs + totalWeight ys := by
  rw [totalWeight, List.map_append, List.sum_append]
  rfl

theorem weight_pos (s : String) : 1 ≤ weight s := by
  unfold weight
  split_ifs <;> omega

theorem weight_le (s : String) : weight s ≤ 2 := by
  unfold weight
  split_ifs <;> omega

variable {s : Segment String} {a b : String} {options : LocalRewriteOptions} {op : BytOpcode}

theorem Move.weight_le {changed : Bool} (h : Move s changed) :
    totalWeight s.emitted ≤ totalWeight s.consumed := by
  cases changed with
  | true => exact (h.lighter rfl).le
  | false =>
      rw [h.same rfl]
      exact le_refl _

/-- Windows put together. -/
theorem Move.append {t : Segment String} {a b : Bool} (hs : Move s a) (ht : Move t b) :
    Move (s.append t) (a || b) where
  ordered := hs.ordered.append ht.ordered
  keeps := Segment.Keeps.append hs.ordered hs.keeps ht.keeps
  lighter := by
    intro h
    show totalWeight (s.emitted ++ t.emitted) < totalWeight (s.consumed ++ t.consumed)
    rw [totalWeight_append, totalWeight_append]
    rcases Bool.or_eq_true_iff.1 h with h | h
    · exact Nat.add_lt_add_of_lt_of_le (hs.lighter h) ht.weight_le
    · exact Nat.add_lt_add_of_le_of_lt hs.weight_le (ht.lighter h)
  same := by
    intro h
    obtain ⟨ha, hb⟩ := Bool.or_eq_false_iff.1 h
    rw [hs.same ha, ht.same hb, Segment.append_same_same]
    rfl

theorem sameControl_refl (s : String) : SameControl s s := .inl rfl

theorem move_same (atoms : List String) : Move (Segment.same atoms) false where
  ordered := Segment.same_ordered atoms
  keeps := Segment.same_keeps sameControl_refl atoms
  lighter := nofun
  same := fun _ => rfl

/-! ### Control instructions -/

theorem isControlFlow_of_isControl {s : String} (h : IsControl s) : isControlFlow s = true := by
  obtain ⟨op, hop, hs⟩ := h
  have hbyte := firstByte_of_hexPairs ((isOp_iff s op).1 hs)
  rw [isControlFlow, hbyte]
  have hmem : op ∈ controlFlowOpcodes := by
    clear hs hbyte
    revert op
    decide
  exact List.any_eq_true.2 ⟨op, hmem, beq_self_eq_true _⟩

/-- A push that the duplicate rule applies to is no other instruction. -/
theorem not_isOp_of_profitable
    (h : isProfitableDuplicatePush a b options = true) (hop : isOneByte op = true)
    (hpush : pushValue ⟨op.toByte, []⟩ = none) : isOp a op = false := by
  by_contra hisOp
  rw [Bool.not_eq_false] at hisOp
  have hinstr := completeInstruction_of_isOp hisOp hop
  unfold isProfitableDuplicatePush at h
  by_cases hab : a ≠ b
  · rw [if_pos hab] at h
    cases h
  rw [if_neg hab] at h
  split at h
  · rename_i decoded hdecoded
    obtain ⟨instr, hinstr', hvalue⟩ := decodePushHex_spec hdecoded
    rw [hinstr] at hinstr'
    obtain rfl := Option.some.inj hinstr'
    rw [hpush] at hvalue
    cases hvalue
  · cases hsize : knownPlaceholderPushSize a options with
    | none => simp [hsize] at h
    | some size =>
        unfold knownPlaceholderPushSize at hsize
        simp only [Option.bind_eq_bind, Option.bind_eq_some_iff] at hsize
        obtain ⟨label, hlabel, -⟩ := hsize
        rw [completeInstruction_of_placeholderLabel hlabel] at hinstr
        cases hinstr

theorem not_isControl_of_profitable
    (h : isProfitableDuplicatePush a b options = true) : ¬ IsControl a := by
  rintro ⟨op, hop, hisOp⟩
  have hpush : isOneByte op = true ∧ pushValue ⟨op.toByte, []⟩ = none := by
    clear hisOp
    revert op
    decide
  rw [not_isOp_of_profitable h hpush.1 hpush.2] at hisOp
  cases hisOp

/-! ### Windows of three -/

/-- What replaces a window of three. -/
theorem tripleRule_shape {c : String} {replacements : List ReplacementInstruction}
    (h : tripleRule a b c = some replacements) :
    (∃ op, replacements = [⟨opHex op, 2⟩]) ∨ replacements = [⟨a, 0⟩] ∨ replacements = [] ∨
      ∃ op, replacements = [⟨a, 0⟩, ⟨opHex op, 2⟩] ∧ isOpDup b = false := by
  have hdup : ∀ op, isOp b op = true → op ≠ .opDup → isOpDup b = false := by
    intro op hop hne
    by_contra hb
    rw [Bool.not_eq_false] at hb
    exact hne (isOp_unique hop hb)
  unfold tripleRule at h
  simp only [Bool.and_eq_true] at h
  split_ifs at h with h1 hpayload h2 h3 h4 h5 h6 h7 h8 h9
  all_goals obtain rfl := Option.some.inj h
  · exact .inl ⟨_, rfl⟩
  · exact .inl ⟨_, rfl⟩
  · exact .inl ⟨_, rfl⟩
  · exact .inr (.inl rfl)
  · exact .inr (.inr (.inl rfl))
  · exact .inr (.inl rfl)
  · exact .inr (.inl rfl)
  · exact .inr (.inr (.inr ⟨_, rfl, hdup _ h7.1.2 (by decide)⟩))
  · exact .inr (.inl rfl)
  · exact .inr (.inr (.inr ⟨_, rfl, hdup _ h9.1.2 (by decide)⟩))

/-- The places that replacements give to the atoms of a window of three. -/
def replacementPlaces (replacements : List ReplacementInstruction) : List (Option ℕ) :=
  replacements.zipIdx.foldl
    (fun places entry => places.set entry.1.originOffset (some entry.2)) [none, none, none]

theorem keeps_of_not_isControl (h : ∀ x ∈ s.consumed, ¬ IsControl x) :
    s.Keeps IsControl SameControl := by
  intro i x hx hcontrol
  exact absurd hcontrol (h x (List.mem_of_getElem? hx))

theorem move_triple {c : String} {replacements : List ReplacementInstruction}
    (h : tripleRule a b c = some replacements) (hcontrol : ∀ x ∈ [a, b, c], ¬ IsControl x) :
    Move ⟨[a, b, c], replacements.map (·.encoding), replacementPlaces replacements⟩ true := by
  have ha := weight_pos a
  have hb := weight_pos b
  have hc := weight_pos c
  have hweight : totalWeight [a, b, c] = weight a + weight b + weight c := by
    simp [totalWeight, Nat.add_assoc]
  refine ⟨?_, keeps_of_not_isControl hcontrol, ?_, nofun⟩
  · rcases tripleRule_shape h with ⟨op, rfl⟩ | rfl | rfl | ⟨op, rfl, -⟩ <;> exact ⟨rfl, rfl⟩
  · intro _
    show totalWeight (replacements.map (·.encoding)) < totalWeight [a, b, c]
    rw [hweight]
    rcases tripleRule_shape h with ⟨op, rfl⟩ | rfl | rfl | ⟨op, rfl, hdup⟩
    · have hop := weight_le (opHex op)
      simp only [List.map_cons, List.map_nil, totalWeight, List.sum_cons, List.sum_nil]
      omega
    · simp only [List.map_cons, List.map_nil, totalWeight, List.sum_cons, List.sum_nil]
      omega
    · simp only [List.map_nil, totalWeight, List.sum_nil]
      omega
    · have hop := weight_le (opHex op)
      have hb' : weight b = 2 := if_neg (by simp [hdup])
      simp only [List.map_cons, List.map_nil, totalWeight, List.sum_cons, List.sum_nil]
      omega

/-! ### Windows of two -/

theorem move_duplicate {s : String} (h : isProfitableDuplicatePush s s options = true) :
    Move ⟨[s, s], [s, opHex .opDup], [some 0, some 1]⟩ true := by
  have hcontrol := not_isControl_of_profitable h
  have hdup : isOpDup s = false := not_isOp_of_profitable h rfl rfl
  refine ⟨⟨rfl, rfl⟩, keeps_of_not_isControl ?_, ?_, nofun⟩
  · intro x hx
    rcases List.mem_cons.1 hx with rfl | hx
    · exact hcontrol
    · rwa [List.mem_singleton.1 hx]
  · intro _
    have hs : weight s = 2 := if_neg (by simp [hdup])
    have hd : weight (opHex .opDup) = 1 := if_pos (isOp_opHex _)
    simp only [totalWeight, List.map_cons, List.map_nil, List.sum_cons, List.sum_nil, hs, hd]
    omega

theorem move_delete (ha : ¬ IsControl a) (hb : ¬ IsControl b) :
    Move ⟨[a, b], [], [none, none]⟩ true := by
  refine ⟨⟨rfl, rfl⟩, keeps_of_not_isControl ?_, ?_, nofun⟩
  · intro x hx
    rcases List.mem_cons.1 hx with rfl | hx
    · exact ha
    · rwa [List.mem_singleton.1 hx]
  · intro _
    have hpos := weight_pos a
    simp only [totalWeight, List.map_cons, List.map_nil, List.sum_cons, List.sum_nil]
    omega

theorem move_replace (ha : ¬ IsControl a)
    (hb : IsControl b → SameControl b (opHex op)) (hdup : isOpDup a = false) :
    Move ⟨[a, b], [opHex op], [none, some 0]⟩ true := by
  refine ⟨⟨rfl, rfl⟩, ?_, ?_, nofun⟩
  · intro i x hx hcontrol
    match i with
    | 0 => exact absurd (Option.some.inj hx ▸ hcontrol) ha
    | 1 =>
        obtain rfl := Option.some.inj hx
        exact ⟨0, opHex op, rfl, rfl, hb hcontrol⟩
    | i + 2 => cases hx
  · intro _
    have hpos := weight_pos b
    have hle := weight_le (opHex op)
    have ha' : weight a = 2 := if_neg (by simp [hdup])
    simp only [totalWeight, List.map_cons, List.map_nil, List.sum_cons, List.sum_nil]
    omega

/-- What a rule for two atoms needs in order to be a window. -/
def RuleKeeps (cur nxt : String) : PairRewrite → Prop
  | .none => True
  | .deletePair => ¬ IsControl nxt
  | .replacePair op => (IsControl nxt → SameControl nxt (opHex op)) ∧ isOpDup cur = false

theorem not_isOpDup {s : String} (h : isOp s op = true) (hne : op ≠ .opDup) :
    isOpDup s = false := by
  by_contra hdup
  rw [Bool.not_eq_false] at hdup
  exact hne (isOp_unique h hdup)

theorem not_isControl_verify {s : String} (h : isOp s .opVerify = true) : ¬ IsControl s := by
  rintro ⟨op, hop, hs⟩
  obtain rfl := isOp_unique h hs
  revert hop
  decide

theorem ruleKeeps_terminalRule (cur nxt : String) (emitted : List String) (allow : Bool) :
    RuleKeeps cur nxt (terminalRule cur nxt emitted allow) := by
  unfold terminalRule
  refine iteInduction (fun h => ?_) fun _ => iteInduction (fun hverify => ?_) fun _ => trivial
  -- an inverted condition
  · simp only [Bool.and_eq_true, Bool.or_eq_true] at h
    refine ⟨fun _ => ?_, not_isOpDup h.1.1 (by decide)⟩
    rcases h.1.2 with hif | hnotif
    · rw [if_pos hif]
      exact .inr (.inl ⟨hif, isOp_opHex _⟩)
    · have hif : ¬ isOp nxt .opIf = true := fun hif => by cases isOp_unique hif hnotif
      rw [if_neg hif]
      exact .inr (.inr ⟨hnotif, isOp_opHex _⟩)
  · have hcontrol := not_isControl_verify hverify
    refine iteInduction (fun _ => hcontrol) fun _ => ?_
    have hfused : ∀ fused, fusedVerifyOpcode cur = some fused → isOpDup cur = false := by
      intro fused hfused
      unfold fusedVerifyOpcode at hfused
      split_ifs at hfused with h1 h2 h3 h4
      · exact not_isOpDup h1 (by decide)
      · exact not_isOpDup h2 (by decide)
      · exact not_isOpDup h3 (by decide)
      · exact not_isOpDup h4 (by decide)
    cases h : fusedVerifyOpcode cur with
    | none => trivial
    | some fused => exact ⟨fun hnxt => absurd hnxt hcontrol, hfused fused h⟩

theorem ruleKeeps_straightRule {cur nxt : String} (emitted : List String) (h : ¬ IsControl nxt) :
    RuleKeeps cur nxt (straightRule cur nxt emitted) := by
  -- a rule that replaces has a first atom that is no `OP_DUP`
  have hreplace : ∀ (op op' : BytOpcode), isOp cur op = true → op ≠ .opDup →
      RuleKeeps cur nxt (.replacePair op') := by
    intro op op' hcur hne
    exact ⟨fun hnxt => absurd hnxt h, not_isOpDup hcur hne⟩
  unfold straightRule
  simp only [Bool.and_eq_true]
  iterate 10 refine iteInduction (fun hc => hreplace _ _ hc.1 (by decide)) fun _ => ?_
  iterate 3 refine iteInduction (fun _ => h) fun _ => ?_
  refine iteInduction (fun hc => hreplace _ _ hc.1.1 (by decide)) fun _ => ?_
  refine iteInduction (fun hc => hreplace _ _ hc.1 (by decide)) fun _ => ?_
  refine iteInduction (fun hc => hreplace _ _ hc.1.1 (by decide)) fun _ => ?_
  refine iteInduction (fun hc => hreplace _ _ hc.1.1 (by decide)) fun _ => ?_
  trivial

theorem ruleKeeps_tryRewritePair (cur nxt : String) (emitted : List String) (allow : Bool) :
    RuleKeeps cur nxt (tryRewritePair cur nxt emitted allow) := by
  have hterminal := ruleKeeps_terminalRule cur nxt emitted allow
  unfold tryRewritePair
  split
  · refine iteInduction (fun _ => trivial) fun hflow => ruleKeeps_straightRule emitted ?_
    exact fun hcontrol => hflow (isControlFlow_of_isControl hcontrol)
  · exact hterminal

/-! ### The scan -/

section Scan

variable {v : List String} {executableEnd : ℕ} {options : LocalRewriteOptions}
variable {st : Scan} {s : Segment String}

/-- The scan has read the atoms of a segment and written what it writes. -/
structure Reads (v : List String) (st : Scan) (s : Segment String) : Prop where
  place : st.i = s.consumed.length
  consumed : v.take st.i = s.consumed
  out : st.out = s.emitted
  oldToNew : st.oldToNew = s.places ++ List.replicate (v.length - st.i) none

theorem set_places (places window rest : List (Option ℕ)) {j : ℕ} (hj : j < window.length)
    (x : Option ℕ) :
    (places ++ (window ++ rest)).set (places.length + j) x = places ++ (window.set j x ++ rest) := by
  rw [List.set_append_right _ _ (Nat.le_add_right _ _), Nat.add_sub_cancel_left,
    List.set_append_left _ _ hj]

/-- The next window is read. -/
theorem Reads.next {st' : Scan} {piece : Segment String} (h : Reads v st s)
    (hwindow : (v.drop st.i).take piece.consumed.length = piece.consumed)
    (hi : st'.i = st.i + piece.consumed.length) (hout : st'.out = st.out ++ piece.emitted)
    (hmap : st'.oldToNew = s.places ++ (piece.places.map (Option.map (s.emitted.length + ·)) ++
      List.replicate (v.length - st'.i) none)) :
    Reads v st' (s.append piece) where
  place := by
    rw [hi, h.place]
    exact (List.length_append ..).symm
  consumed := by
    rw [hi, List.take_add, h.consumed, hwindow]
    rfl
  out := by
    rw [hout, h.out]
    rfl
  oldToNew := by
    rw [hmap, ← List.append_assoc]
    rfl

theorem replicate_window {k n i : ℕ} (h : i + k ≤ n) :
    List.replicate (n - i) (none : Option ℕ) =
      List.replicate k none ++ List.replicate (n - (i + k)) none := by
  rw [← List.replicate_add]
  congr 1
  omega

theorem Reads.places_length (h : Reads v st s) (hs : s.Ordered) : st.i = s.places.length := by
  rw [h.place, hs.length]

theorem Reads.set_window (h : Reads v st s) (hs : s.Ordered)
    (window rest : List (Option ℕ)) {j : ℕ} (hj : j < window.length) (x : Option ℕ) :
    (s.places ++ (window ++ rest)).set (st.i + j) x = s.places ++ (window.set j x ++ rest) := by
  rw [h.places_length hs, set_places _ _ _ hj]

theorem Reads.keep (h : Reads v st s) (hs : s.Ordered) (hlt : st.i < v.length) :
    Reads v (keepInstruction v st) (s.append (Segment.same [v.getD st.i ""])) := by
  refine h.next (window_one hlt) rfl rfl ?_
  show st.oldToNew.set (st.i + 0) (some st.out.length) = _
  rw [h.oldToNew, replicate_window (k := 1) hlt, h.set_window hs _ _ (by simp), h.out]
  rfl

theorem Reads.replace (h : Reads v st s) (hs : s.Ordered)
    (hlt : st.i + 1 < v.length) (replacement : String) :
    Reads v (replacePairWithOne replacement st)
      (s.append ⟨[v.getD st.i "", v.getD (st.i + 1) ""], [replacement], [none, some 0]⟩) := by
  refine h.next (window_two hlt) rfl rfl ?_
  show st.oldToNew.set (st.i + 1) (some st.out.length) = _
  rw [h.oldToNew, replicate_window (k := 2) hlt, h.set_window hs _ _ (by simp), h.out]
  rfl

theorem Reads.delete (h : Reads v st s) (hlt : st.i + 1 < v.length) :
    Reads v { st with i := st.i + 2, changed := true }
      (s.append ⟨[v.getD st.i "", v.getD (st.i + 1) ""], [], [none, none]⟩) := by
  refine h.next (window_two hlt) rfl (List.append_nil _).symm ?_
  show st.oldToNew = _
  rw [h.oldToNew, replicate_window (k := 2) hlt]
  rfl

/-- A push is kept and its repetition replaced. -/
theorem Reads.duplicate (h : Reads v st s) (hs : s.Ordered)
    (hlt : st.i + 1 < v.length) (hsame : v.getD st.i "" = v.getD (st.i + 1) "") :
    Reads v (applyDuplicatePush v st) (s.append ⟨[v.getD st.i "", v.getD st.i ""],
      [v.getD st.i "", opHex .opDup], [some 0, some 1]⟩) := by
  have hwindow := window_two hlt
  rw [← hsame] at hwindow
  refine h.next hwindow rfl ?_ ?_
  · simp [applyDuplicatePush, keepInstruction]
  · show (st.oldToNew.set (st.i + 0) (some st.out.length)).set (st.i + 1)
      (some (st.out ++ [v.getD st.i ""]).length) = _
    rw [h.oldToNew, replicate_window (k := 2) hlt, h.set_window hs _ _ (by simp),
      h.set_window hs _ _ (by simp), h.out, List.length_append]
    rfl

/-- Three atoms are replaced. -/
theorem Reads.triple (h : Reads v st s) (hs : s.Ordered)
    (hlt : st.i + 2 < v.length) {a b c : String}
    (hwindow : [v.getD st.i "", v.getD (st.i + 1) "", v.getD (st.i + 2) ""] = [a, b, c])
    {replacements : List ReplacementInstruction} (hrule : tripleRule a b c = some replacements) :
    Reads v (applyTripleRewrite replacements st) (s.append ⟨[a, b, c],
      replacements.map (·.encoding), replacementPlaces replacements⟩) := by
  refine h.next ((window_three hlt).trans hwindow) rfl (foldl_applyReplacement_out _ _ _) ?_
  have hmap : st.oldToNew = s.places ++ (List.replicate 3 none ++
      List.replicate (v.length - (st.i + 3)) none) := by
    rw [h.oldToNew, replicate_window (k := 3) hlt]
  rcases tripleRule_shape hrule with ⟨op, rfl⟩ | rfl | rfl | ⟨op, rfl, -⟩
  · show st.oldToNew.set (st.i + 2) (some st.out.length) = _
    rw [hmap, h.set_window hs _ _ (by simp), h.out]
    rfl
  · show st.oldToNew.set (st.i + 0) (some st.out.length) = _
    rw [hmap, h.set_window hs _ _ (by simp), h.out]
    rfl
  · exact hmap
  · show (st.oldToNew.set (st.i + 0) (some st.out.length)).set (st.i + 2)
      (some (st.out ++ [a]).length) = _
    rw [hmap, h.set_window hs _ _ (by simp), h.set_window hs _ _ (by simp), h.out,
      List.length_append]
    rfl

/-- **A round of the scan reads one window of the executable part.** -/
theorem scanStep_reads (allow : Bool) (options : LocalRewriteOptions) (h : Reads v st s)
    (hs : s.Ordered) (hend : executableEnd ≤ v.length) (hlt : st.i < executableEnd) :
    ∃ piece changed, Move piece changed ∧
      Reads v (scanStep v executableEnd allow options st) (s.append piece) ∧
      (scanStep v executableEnd allow options st).changed = (st.changed || changed) ∧
      (scanStep v executableEnd allow options st).i ≤ executableEnd ∧
      st.i < (scanStep v executableEnd allow options st).i := by
  -- an instruction that no rule touches is copied with its own place
  have hkeep : Move (Segment.same [v.getD st.i ""]) false := move_same _
  unfold scanStep
  split
  -- a window of three
  · rename_i replacements htriple
    unfold tripleAt at htriple
    simp only [Bool.and_eq_true, decide_eq_true_eq] at htriple
    split_ifs at htriple with hcond
    have hrule := tripleRule_of_tryRewriteTriple htriple
    have hcontrol : ∀ x, straight x = true → ¬ IsControl x := by
      intro x hx hcontrol
      simp [straight, isControlFlow_of_isControl hcontrol] at hx
    refine ⟨_, true, move_triple hrule ?_, h.triple hs (by omega) rfl hrule, ?_, ?_, ?_⟩
    · intro x hx
      simp only [List.mem_cons, List.not_mem_nil, or_false] at hx
      rcases hx with rfl | rfl | rfl
      · exact hcontrol _ hcond.2.1.1
      · exact hcontrol _ hcond.2.1.2
      · exact hcontrol _ hcond.2.2
    · exact (Bool.or_true _).symm
    · show st.i + 3 ≤ executableEnd
      omega
    · show st.i < st.i + 3
      omega
  · split
    -- the duplicate push
    · rename_i hdup
      simp only [Bool.and_eq_true, decide_eq_true_eq] at hdup
      have hsame : v.getD st.i "" = v.getD (st.i + 1) "" := by
        by_contra hne
        have hfalse := hdup.2
        rw [isProfitableDuplicatePush, if_pos hne] at hfalse
        cases hfalse
      have hprofitable := hdup.2
      rw [← hsame] at hprofitable
      refine ⟨_, true, move_duplicate hprofitable, h.duplicate hs (by omega) hsame, ?_, ?_, ?_⟩
      · exact (Bool.or_true _).symm
      · show st.i + 2 ≤ executableEnd
        omega
      · show st.i < st.i + 2
        omega
    -- a window of two
    · have hpair : ∀ rule, pairAt v executableEnd allow st = rule → rule ≠ .none →
          st.i + 1 < executableEnd ∧ ¬ IsControl (v.getD st.i "") ∧
            RuleKeeps (v.getD st.i "") (v.getD (st.i + 1) "") rule := by
        rintro rule rfl hrule
        unfold pairAt at hrule ⊢
        simp only [Bool.and_eq_true, Bool.or_eq_true, decide_eq_true_eq] at hrule ⊢
        split_ifs at hrule ⊢ with h1 h2
        · exact absurd rfl hrule
        · refine ⟨h2.1, ?_, ruleKeeps_tryRewritePair _ _ _ _⟩
          exact fun hcontrol => h1 (.inr (isControlFlow_of_isControl hcontrol))
        · exact absurd rfl hrule
      split
      · rename_i hrule
        obtain ⟨hi, hcur, hkeeps⟩ := hpair _ hrule (by simp)
        refine ⟨_, true, move_delete hcur hkeeps, h.delete (by omega), ?_, ?_, ?_⟩
        · exact (Bool.or_true _).symm
        · show st.i + 2 ≤ executableEnd
          omega
        · show st.i < st.i + 2
          omega
      · rename_i replacement hrule
        obtain ⟨hi, hcur, hkeeps, hdup⟩ := hpair _ hrule (by simp)
        refine ⟨_, true, move_replace hcur hkeeps hdup, h.replace hs (by omega) _, ?_, ?_, ?_⟩
        · exact (Bool.or_true _).symm
        · show st.i + 2 ≤ executableEnd
          omega
        · show st.i < st.i + 2
          omega
      · refine ⟨_, false, hkeep, h.keep hs (by omega), ?_, ?_, ?_⟩
        · exact (Bool.or_false _).symm
        · show st.i + 1 ≤ executableEnd
          omega
        · show st.i < st.i + 1
          omega

/-- The scan reads the executable part. -/
theorem scan_reads (allow : Bool) (options : LocalRewriteOptions) (fuel : ℕ) (h : Reads v st s)
    (hmove : Move s st.changed) (hend : executableEnd ≤ v.length) (hle : st.i ≤ executableEnd)
    (hfuel : executableEnd - st.i ≤ fuel) :
    ∃ whole, Move whole (scan v executableEnd allow options fuel st).changed ∧
      Reads v (scan v executableEnd allow options fuel st) whole ∧
      (scan v executableEnd allow options fuel st).i = executableEnd := by
  induction fuel generalizing st s with
  | zero => exact ⟨s, hmove, h, by rw [scan]; omega⟩
  | succ fuel ih =>
      rw [scan]
      by_cases hlt : st.i < executableEnd
      · rw [if_pos hlt]
        obtain ⟨piece, changed, hpiece, hreads, hchanged, hle', hprogress⟩ :=
          scanStep_reads allow options h hmove.ordered hend hlt
        refine ih hreads ?_ hle' (by omega)
        rw [hchanged]
        exact hmove.append hpiece
      · rw [if_neg hlt]
        exact ⟨s, hmove, h, by omega⟩

/-- The atoms after the executable part are kept. -/
theorem keepRest_reads (fuel : ℕ) (h : Reads v st s)
    (hs : s.Ordered) (hle : st.i ≤ v.length) (hfuel : v.length - st.i ≤ fuel) :
    Reads v (keepRest v fuel st) (s.append (Segment.same (v.drop st.i))) ∧
      (keepRest v fuel st).i = v.length ∧ (keepRest v fuel st).changed = st.changed := by
  induction fuel generalizing st s with
  | zero =>
      have hi : st.i = v.length := by omega
      rw [keepRest, hi, List.drop_length, Segment.append_same_nil]
      exact ⟨h, rfl, rfl⟩
  | succ fuel ih =>
      rw [keepRest]
      by_cases hlt : st.i < v.length
      · rw [if_pos hlt]
        have hkeep := h.keep hs hlt
        obtain ⟨hreads, hi, hchanged⟩ := ih hkeep (hs.append (Segment.same_ordered _)) hlt
          (show v.length - (st.i + 1) ≤ fuel by omega)
        refine ⟨?_, hi, hchanged⟩
        rw [Segment.append_assoc, Segment.append_same_same] at hreads
        rw [drop_eq_getD_cons hlt]
        exact hreads
      · have hi : st.i = v.length := by omega
        rw [if_neg hlt, hi, List.drop_length, Segment.append_same_nil]
        exact ⟨h, rfl, rfl⟩

end Scan

/-! ### The pass -/

/-- **One call of `runOnePass` is one segment**: the windows of the executable part put together, and
the atoms behind it as they are. -/
theorem runOnePass_segment (v : List String) (allow : Bool) (options : LocalRewriteOptions)
    (artifact : Option (List BytecodeInstruction)) :
    ∃ windows : Segment String,
      Move windows (runOnePass v allow options artifact).changed ∧
      windows.consumed = v.take (optimizablePrefixLength v artifact) ∧
      (runOnePass v allow options artifact).oldToNew =
        (windows.append (Segment.same (v.drop (optimizablePrefixLength v artifact)))).places ∧
      (runOnePass v allow options artifact).instructions =
        (windows.append (Segment.same (v.drop (optimizablePrefixLength v artifact)))).emitted := by
  have hend := optimizablePrefixLength_le v artifact
  have hstart : Reads v ⟨0, [], List.replicate v.length none, false⟩ (Segment.same []) :=
    ⟨rfl, rfl, rfl, rfl⟩
  obtain ⟨windows, hmove, hreads, hi⟩ := scan_reads allow options
    (optimizablePrefixLength v artifact) hstart (move_same []) hend (Nat.zero_le _) (Nat.sub_le _ _)
  obtain ⟨hall, hlast, hchanged⟩ := keepRest_reads v.length hreads hmove.ordered (by omega)
    (Nat.sub_le _ _)
  rw [hi] at hall
  have hmap := hall.oldToNew
  rw [hlast, Nat.sub_self, List.replicate_zero, List.append_nil] at hmap
  have hconsumed := hreads.consumed
  rw [hi] at hconsumed
  have hmove' : Move windows (runOnePass v allow options artifact).changed := by
    rw [runOnePass, hchanged]
    exact hmove
  refine ⟨windows, hmove', hconsumed.symm, hmap, ?_⟩
  rw [runOnePass]
  split_ifs with hifchanged
  · exact hall.out
  -- nothing was changed, so the script is what was read
  · rw [hchanged, Bool.not_eq_true] at hifchanged
    have hsame := hmove.same hifchanged
    have hemitted : windows.emitted = windows.consumed := by
      rw [hsame]
      rfl
    show v = windows.emitted ++ v.drop _
    rw [hemitted, ← hconsumed, List.take_append_drop]

/-- **A call that changes the script makes it lighter.** -/
theorem totalWeight_runOnePass_lt {v : List String} {allow : Bool}
    {artifact : Option (List BytecodeInstruction)}
    (h : (runOnePass v allow options artifact).changed = true) :
    totalWeight (runOnePass v allow options artifact).instructions < totalWeight v := by
  obtain ⟨windows, hmove, hconsumed, -, hout⟩ := runOnePass_segment v allow options artifact
  have hlighter := hmove.lighter h
  have hv : v = windows.consumed ++ v.drop (optimizablePrefixLength v artifact) := by
    rw [hconsumed, List.take_append_drop]
  calc totalWeight (runOnePass v allow options artifact).instructions
      = totalWeight windows.emitted +
          totalWeight (v.drop (optimizablePrefixLength v artifact)) := by
        rw [hout]
        exact totalWeight_append _ _
    _ < totalWeight windows.consumed +
          totalWeight (v.drop (optimizablePrefixLength v artifact)) :=
        Nat.add_lt_add_right hlighter _
    _ = totalWeight v := by rw [← totalWeight_append, ← hv]

end AtomicProof.Peephole
