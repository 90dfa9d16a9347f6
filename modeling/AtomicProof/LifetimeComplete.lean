/-
Where kill suggestions are complete.

The storage of an atom is given up where the atom is needed for the last time: after the statement that
needs it last, or on the edge across which the need ends.  A value that is live definitely reaches, so
the need that ends on an edge is always met with a suggestion.  Inside a statement it is not: a statement
that makes a value from another one needs the atoms of the source but gives up only those of the value it
makes, and a statement that consumes a part of all values with an atom has none left to retire.

Main definitions:

* `Lifetime.UsesOrDefines`, `Lifetime.NeededAt` — a statement or a place with an atom;
* `Lifetime.Fresh`, `Lifetime.Present` — what is there on every path from the entry;
* `Lifetime.EndsCleanly` — the condition under which nothing is left.

Main results:

* `Lifetime.liveAt_subset_reaching` — live values definitely reach;
* `Lifetime.mem_reachingBefore_iff` — what definitely reaches is what is present on every path;
* `Lifetime.kills_complete_iff` — **a path gives up an atom exactly where its last need ends cleanly**.
-/

import AtomicProof.LifetimeDominance
import Mathlib.Data.List.Induction

set_option autoImplicit false

namespace AtomicProof.Lifetime

variable {cfg : LifetimeControlFlowGraph} {values : StableValueTable} {a : AtomId}
variable {i : cfg.Index} {k done : ℕ} {s : LiveValueSet} {v : ValueId}

/-! ### Graphs without issues -/

/-- What an analysis without issues has checked. -/
structure Quiet (cfg : LifetimeControlFlowGraph) (values : StableValueTable) : Prop where
  checked : Checked cfg values
  passes : PassesChecks cfg values
  known : ∀ v ∈ referencedValues cfg values, v ∈ cfg.parameters ∨ v ∈ definedValues cfg
  available : availabilityIssues cfg values = []
  consume_safe : ∀ i ∈ reachable cfg, ∀ (k : ℕ) (statement : LifetimeStatement),
    (cfg.block i).statements[k]? = some statement → ∀ b, unsafeConsume values statement b = false
  consume_dead : ∀ i ∈ reachable cfg, ∀ (k : ℕ) (statement : LifetimeStatement),
    (cfg.block i).statements[k]? = some statement → ∀ b, 0 < statement.consumeCount values b →
      DeadAt values cfg b i (k + 1)

theorem mem_atomsForValues {live : LiveValueSet} :
    a ∈ atomsForValues values live ↔ ∃ v ∈ live, a ∈ values.atomsOf v := by
  simp [atomsForValues]

theorem consumeCount_pos {statement : LifetimeStatement} :
    0 < statement.consumeCount values a ↔
      ∃ use ∈ statement.uses, use.consumes = true ∧ a ∈ values.atomsOf use.value := by
  unfold LifetimeStatement.consumeCount
  rw [List.length_pos_iff_exists_mem]
  constructor
  · rintro ⟨use, huse⟩
    obtain ⟨huse, hcond⟩ := List.mem_filter.1 huse
    rw [Bool.and_eq_true, decide_eq_true_eq] at hcond
    exact ⟨use, huse, hcond⟩
  · rintro ⟨use, huse, hconsumes, ha⟩
    exact ⟨use, List.mem_filter.2 ⟨huse, by simp [hconsumes, ha]⟩⟩

theorem mem_consumedAtoms {statement : LifetimeStatement} :
    a ∈ statement.consumedAtoms values ↔ 0 < statement.consumeCount values a := by
  rw [consumeCount_pos, LifetimeStatement.consumedAtoms, mem_atomsForValues]
  constructor
  · rintro ⟨v, hv, ha⟩
    obtain ⟨use, huse, rfl⟩ := List.mem_map.1 (List.mem_toFinset.1 hv)
    obtain ⟨huse, hconsumes⟩ := List.mem_filter.1 huse
    exact ⟨use, huse, hconsumes, ha⟩
  · rintro ⟨use, huse, hconsumes, ha⟩
    refine ⟨use.value, List.mem_toFinset.2 (List.mem_map.2 ⟨use, ?_, rfl⟩), ha⟩
    exact List.mem_filter.2 ⟨huse, hconsumes⟩

/-- What a statement uses or defines a value with. -/
theorem mem_factAtoms {statement : LifetimeStatement} :
    a ∈ factAtoms values statement ↔ (∃ use ∈ statement.uses, a ∈ values.atomsOf use.value) ∨
      ∃ d ∈ statement.definitions, a ∈ values.atomsOf d := by
  unfold factAtoms LifetimeStatement.definitionAtoms LifetimeStatement.useAtoms
  rw [Finset.mem_union, mem_atomsForValues, mem_atomsForValues, or_comm]
  refine or_congr ?_ ?_
  · constructor
    · rintro ⟨v, hv, ha⟩
      obtain ⟨use, huse, rfl⟩ := mem_used.1 hv
      exact ⟨use, huse, ha⟩
    · rintro ⟨use, huse, ha⟩
      exact ⟨use.value, mem_used.2 ⟨use, huse, rfl⟩, ha⟩
  · simp only [mem_defined]

/-- The loop over the atoms visits every atom of every statement of a reachable block. -/
theorem mem_atomEvents_of {α : Type} {x : α}
    {event : cfg.Index → ℕ → LifetimeStatement → Bool → AtomId → List α}
    (hi : i ∈ reachable cfg) {statement : LifetimeStatement}
    (hst : (cfg.block i).statements[k]? = some statement) (ha : a ∈ factAtoms values statement)
    (hx : x ∈ event i k statement
      (decide (a ∈ atomsForValues values (liveAt values cfg i (k + 1)))) a) :
    x ∈ atomEvents cfg values event := by
  have hlength : k < (blockLiveness cfg values i).statements.length := by
    rw [(exactBlock hi).length_eq]
    exact (List.getElem?_eq_some_iff.1 hst).1
  obtain ⟨live, hlive⟩ : ∃ live, (blockLiveness cfg values i).statements[k]? = some live :=
    ⟨_, List.getElem?_eq_getElem hlength⟩
  have hatoms : live.liveAtomsAfter = atomsForValues values (liveAt values cfg i (k + 1)) := by
    simp only [blockLiveness, if_pos hi] at hlive
    exact getElem?_statementLiveness _ _ hlive
  refine List.mem_flatMap.2 ⟨i, mem_reachableIndices.2 hi, List.mem_flatMap.2 ?_⟩
  refine ⟨((statement, live), k), ?_, List.mem_flatMap.2 ⟨a, mem_inOrder.2 ha, ?_⟩⟩
  · rw [List.mk_mem_zipIdx_iff_getElem?, List.getElem?_zip_eq_some]
    exact ⟨hst, hlive⟩
  · rw [← hatoms] at hx
    exact hx

/-- **What an analysis without issues has checked.** -/
theorem quiet_of_issues (h : (analyze cfg values).issues = []) : Quiet cfg values := by
  have hchecked := checked_of_issues h
  unfold analyze at h
  split_ifs at h with hstructure hdefinition havailable
  · exact absurd h hstructure
  · exact absurd h hdefinition
  · exact absurd h havailable
  · rw [not_not] at hstructure hdefinition havailable
    obtain ⟨hconsume, hkill⟩ := List.append_eq_nil_iff.1 h
    obtain ⟨hlocation, hmissing⟩ := List.append_eq_nil_iff.1 hdefinition
    refine ⟨hchecked, ⟨hstructure, fun v hv => ?_⟩, fun v hv => ?_, havailable, ?_, ?_⟩
    · exact List.flatMap_eq_nil_iff.1 hlocation v (mem_inOrder.2 hv)
    -- a referenced value without definition would be an issue
    · by_contra hunknown
      rw [not_or] at hunknown
      have hmem : v ∈ (inOrder (referencedValues cfg values)).filter fun value =>
          value ∉ parameters cfg ∧ value ∉ definedValues cfg := by
        refine List.mem_filter.2 ⟨mem_inOrder.2 hv, decide_eq_true ⟨?_, hunknown.2⟩⟩
        exact fun hparameter => hunknown.1 (List.mem_toFinset.1 hparameter)
      rw [List.map_eq_nil_iff.1 hmissing] at hmem
      exact absurd hmem List.not_mem_nil
    · intro i hi k statement hst b
      by_contra hnotSafe
      rw [Bool.not_eq_false, unsafeConsume, Bool.or_eq_true, Bool.and_eq_true, decide_eq_true_eq,
        decide_eq_true_eq, decide_eq_true_eq] at hnotSafe
      have hpos : 0 < statement.consumeCount values b := by
        rcases hnotSafe with hmany | ⟨hone, -⟩ <;> omega
      have hnone : statementConsumeIssues cfg values i k statement = [] := by
        have hblock := List.flatMap_eq_nil_iff.1 hconsume i (mem_reachableIndices.2 hi)
        exact List.flatMap_eq_nil_iff.1 hblock (statement, k)
          (List.mk_mem_zipIdx_iff_getElem?.2 hst)
      have hb := List.flatMap_eq_nil_iff.1 hnone b (mem_inOrder.2 (mem_consumedAtoms.2 hpos))
      obtain ⟨hfirst, hsecond⟩ := List.append_eq_nil_iff.1 hb
      rcases hnotSafe with hmany | ⟨-, hdef⟩
      · rw [if_pos hmany] at hfirst
        exact absurd hfirst (List.cons_ne_nil _ _)
      · rw [if_pos hdef] at hsecond
        exact absurd hsecond (List.cons_ne_nil _ _)
    · intro i hi k statement hst b hpos
      rw [deadAt_iff]
      intro hlive
      have hfact : b ∈ factAtoms values statement := by
        obtain ⟨use, huse, -, hb⟩ := consumeCount_pos.1 hpos
        exact mem_factAtoms.2 (.inl ⟨use, huse, hb⟩)
      have hmem : (⟨.consumedAtomStillLive, (cfg.block i).id, k, representative values statement b,
          "a consumed atom still has a may-live alias"⟩ : LifetimeIssue) ∈ killIssues cfg values := by
        refine mem_atomEvents_of hi hst hfact (List.mem_append_right _ ?_)
        rw [if_pos ⟨hpos, decide_eq_true hlive⟩]
        exact List.mem_singleton_self _
      rw [hkill] at hmem
      exact absurd hmem List.not_mem_nil

/-! ### Live values definitely reach -/

theorem reachingBefore_succ {statement : LifetimeStatement}
    (hst : (cfg.block i).statements[k]? = some statement) :
    reachingBefore cfg values i (k + 1) =
      transferReachingStatement values (reachingBefore cfg values i k) statement := by
  obtain ⟨hlt, rfl⟩ := List.getElem?_eq_some_iff.1 hst
  rw [reachingBefore, reachingBefore, List.take_succ_eq_append_getElem hlt, transferReachingBlock,
    List.foldl_append]
  rfl

theorem reachingBefore_length (hi : i ∈ reachable cfg) :
    reachingBefore cfg values i (cfg.block i).statements.length = (reaching cfg values i).2 := by
  rw [reachingBefore, List.take_length]
  conv_rhs => rw [← reaching_stable hi]
  conv_lhs => rw [← reaching_stable hi]
  rfl

theorem mem_transferReachingStatement {statement : LifetimeStatement}
    : v ∈ transferReachingStatement values s statement ↔
      Defines statement v ∨ v ∈ s ∧ ∀ b ∈ values.atomsOf v, ¬ 0 < statement.consumeCount values b := by
  unfold transferReachingStatement Defines
  rw [Finset.mem_union, Finset.mem_filter, Finset.disjoint_left, mem_defined, or_comm]
  simp only [mem_consumedAtoms]

/-- A value live after a statement reaches past it, when the live values before it reach it. -/
theorem Quiet.liveAt_statement_subset (hquiet : Quiet cfg values)
    (hi : i ∈ reachable cfg) {statement : LifetimeStatement}
    (hst : (cfg.block i).statements[k]? = some statement)
    (hs : liveAt values cfg i k ⊆ s) :
    liveAt values cfg i (k + 1) ⊆ transferReachingStatement values s statement := by
  intro v hv
  rw [mem_transferReachingStatement]
  by_cases hdef : Defines statement v
  · exact .inl hdef
  · refine .inr ⟨hs ?_, fun b hb hpos => ?_⟩
    · rw [liveAt_statement hst]
      exact mem_transferLivenessStatement.2 (.inr ⟨hv, hdef⟩)
    · exact hquiet.consume_dead i hi k statement hst b hpos v hv hb

/-- The same for the statements of a block. -/
theorem Quiet.liveAt_subset_block (hquiet : Quiet cfg values)
    (hi : i ∈ reachable cfg) (hs : liveAt values cfg i 0 ⊆ s) :
    ∀ k ≤ (cfg.block i).statements.length,
      liveAt values cfg i k ⊆ transferReachingBlock values ((cfg.block i).statements.take k) s := by
  intro k
  induction k with
  | zero =>
      intro _
      rw [List.take_zero]
      exact hs
  | succ k ih =>
      intro hk
      have hlt : k < (cfg.block i).statements.length := hk
      have hst := List.getElem?_eq_getElem hlt
      rw [List.take_succ_eq_append_getElem hlt, transferReachingBlock, List.foldl_append]
      exact hquiet.liveAt_statement_subset hi hst (ih hlt.le)

/-- A live value is a parameter or defined. -/
theorem Quiet.mem_universe (hquiet : Quiet cfg values)
    (h : LivePath values cfg v i done) : v ∈ reachingUniverse cfg := by
  obtain ⟨before, event, -, hread, -⟩ := h
  have hreferenced : v ∈ referencedValues cfg values := by
    cases event with
    | edge _ _ => exact hread.elim
    | statement j k =>
        obtain ⟨statement, hst, hread⟩ := hread
        obtain ⟨hsources, hused⟩ := reads_subset_referencedValues values
          (mem_statements (List.mem_of_getElem? hst))
        rcases hread with huse | hsource
        · exact hused (mem_used.2 huse)
        · exact hsources (mem_outerSources.2 hsource)
  rcases hquiet.known v hreferenced with hparameter | hdefined
  · exact Finset.mem_union_left _ (List.mem_toFinset.2 hparameter)
  · exact Finset.mem_union_right _ hdefined

/-- A path from the entry goes on along a path from its place. -/
theorem Arrives.append {more : List (Event cfg)} {e : Event cfg}
    (hpath : Path cfg i done (more ++ [e])) : ∀ {events : List (Event cfg)}, Arrives cfg events i done →
      ∀ {j : cfg.Index} {k : ℕ}, e = .statement j k → Arrives cfg (events ++ more) j k := by
  induction more generalizing i done with
  | nil =>
      intro events h j k he
      cases hpath with
      | statement hdone _ =>
          obtain ⟨rfl, rfl⟩ := Event.statement.inj he
          rwa [List.append_nil]
      | edge _ _ => cases he
  | cons first more ih =>
      intro events h j k he
      rw [List.append_cons]
      cases hpath with
      | statement hdone hrest => exact ih hrest (h.statement hdone) he
      | edge hj hrest => exact ih hrest (h.edge hj) he

/-- A value that a path from the entry to a place has not defined, and that is live there, is a
parameter. -/
theorem Quiet.parameter_of_live (hquiet : Quiet cfg values)
    {events : List (Event cfg)} (harrives : Arrives cfg events i done)
    (hevents : ∀ e ∈ events, ¬ e.Holds (Defines · v)) (h : LivePath values cfg v i done) :
    v ∈ cfg.parameters := by
  obtain ⟨before, event, hpath, hread, hbefore⟩ := h
  by_contra hparameter
  cases event with
  | edge _ _ => exact hread
  | statement j k =>
      have harrives' := Arrives.append hpath harrives rfl
      have hunavailable : Unavailable cfg v j k := by
        refine ⟨hparameter, _, harrives', fun e he => ?_⟩
        rcases List.mem_append.1 he with he | he
        · exact hevents e he
        · exact hbefore e he
      obtain ⟨statement, hst, hread⟩ := hread
      have hj : ReachableBlock cfg j := mem_reachable_iff.1 harrives'.mem_reachable
      have hnone := hquiet.available
      rw [List.eq_nil_iff_forall_not_mem] at hnone
      rcases hread with ⟨use, huse, rfl⟩ | ⟨⟨d, hd, hsource⟩, hout⟩
      · refine hnone (useIssue j k use.value)
          ((mem_availabilityIssues hquiet.passes).2 ⟨j, k, statement, hj, hst, .inl ?_⟩)
        exact ⟨use, huse, hunavailable, rfl⟩
      · refine hnone (sourceIssue j k v)
          ((mem_availabilityIssues hquiet.passes).2 ⟨j, k, statement, hj, hst, .inr ?_⟩)
        exact ⟨d, hd, v, hsource, hout, hunavailable, rfl⟩

/-- The values live at the start and at the end of every reachable block are in its sets. -/
def HoldLive (values : StableValueTable) (cfg : LifetimeControlFlowGraph)
    (s : cfg.Index → LiveValueSet × LiveValueSet) : Prop :=
  ∀ i ∈ reachable cfg, liveAt values cfg i 0 ⊆ (s i).1 ∧
    liveAt values cfg i (cfg.block i).statements.length ⊆ (s i).2

theorem Quiet.liveAt_entry_subset (hquiet : Quiet cfg values) {e : cfg.Index}
    (he : entryIndex cfg = some e) : liveAt values cfg e 0 ⊆ parameters cfg := by
  intro v hv
  rw [mem_liveAt_iff (entry_mem_reachable he) (Nat.zero_le _)] at hv
  exact List.mem_toFinset.2 (hquiet.parameter_of_live (.entry he) (by simp) hv)

theorem Quiet.liveAt_subset_universe (hquiet : Quiet cfg values)
    (hi : i ∈ reachable cfg) (hdone : done ≤ (cfg.block i).statements.length) :
    liveAt values cfg i done ⊆ reachingUniverse cfg :=
  fun _ hv => hquiet.mem_universe ((mem_liveAt_iff hi hdone).1 hv)

theorem Quiet.holdLive_out (hquiet : Quiet cfg values) (hi : i ∈ reachable cfg)
    (hs : liveAt values cfg i 0 ⊆ s) :
    liveAt values cfg i (cfg.block i).statements.length ⊆
      transferReachingBlock values (cfg.block i).statements s := by
  have h := hquiet.liveAt_subset_block hi hs _ le_rfl
  rwa [List.take_length] at h

theorem mem_intersectPredecessors {sets : List LiveValueSet} {everything : LiveValueSet} :
    v ∈ intersectPredecessors sets everything ↔ sets ≠ [] ∧ v ∈ everything ∧ ∀ s ∈ sets, v ∈ s := by
  unfold intersectPredecessors
  cases sets with
  | nil => simp
  | cons s sets =>
      rw [if_neg (by simp), mem_foldl_inter]
      simp

theorem exists_predecessor (hi : i ∈ reachable cfg) (hentry : entryIndex cfg ≠ some i) :
    ∃ p, p ∈ predecessors cfg i := by
  obtain ⟨path, hpath⟩ := exists_blockPath hi
  cases hpath with
  | entry he => exact absurd he hentry
  | @step p _ path hpath hj =>
      obtain ⟨rest, rfl⟩ := hpath.mem_head
      exact ⟨p, mem_predecessors.2 ⟨hpath.mem_reachable p List.mem_cons_self, hj⟩⟩

theorem mem_reachingTransfer_in {s : cfg.Index → LiveValueSet × LiveValueSet}
    (hi : i ∈ reachable cfg) (hentry : entryIndex cfg ≠ some i) :
    v ∈ (reachingTransfer cfg values s i).1 ↔
      v ∈ reachingUniverse cfg ∧ ∀ p ∈ predecessors cfg i, v ∈ (s p).2 := by
  have hne : (predecessors cfg i).map (fun p => (s p).2) ≠ [] := by
    obtain ⟨p, hp⟩ := exists_predecessor hi hentry
    exact List.ne_nil_of_mem (List.mem_map_of_mem hp)
  simp only [reachingTransfer, if_neg hentry]
  rw [mem_intersectPredecessors, List.forall_mem_map]
  exact ⟨fun h => h.2, fun h => ⟨hne, h⟩⟩

theorem Quiet.holdLive_update (hquiet : Quiet cfg values)
    {s : cfg.Index → LiveValueSet × LiveValueSet} (h : HoldLive values cfg s)
    (hi : i ∈ reachable cfg) :
    HoldLive values cfg (Function.update s i (reachingTransfer cfg values s i)) := by
  have hin : liveAt values cfg i 0 ⊆ (reachingTransfer cfg values s i).1 := by
    by_cases hentry : entryIndex cfg = some i
    · simp only [reachingTransfer, if_pos hentry]
      exact hquiet.liveAt_entry_subset hentry
    · intro v hv
      rw [mem_reachingTransfer_in hi hentry]
      refine ⟨hquiet.liveAt_subset_universe hi (Nat.zero_le _) hv, fun p hp => ?_⟩
      obtain ⟨hp, hsucc⟩ := mem_predecessors.1 hp
      exact (h p hp).2 (liveAt_end hp hsucc hv)
  intro j hj
  by_cases hji : j = i
  · subst hji
    rw [Function.update_self]
    exact ⟨hin, hquiet.holdLive_out hj hin⟩
  · rw [Function.update_of_ne hji]
    exact h j hj

theorem Quiet.holdLive_initial (hquiet : Quiet cfg values) :
    HoldLive values cfg (initialReaching cfg values) := by
  intro i hi
  rw [initialReaching, if_pos hi]
  have hin : liveAt values cfg i 0 ⊆
      if entryIndex cfg = some i then parameters cfg else reachingUniverse cfg := by
    split_ifs with hentry
    · exact hquiet.liveAt_entry_subset hentry
    · exact hquiet.liveAt_subset_universe hi (Nat.zero_le _)
  exact ⟨hin, hquiet.holdLive_out hi hin⟩

/-- **A live value definitely reaches.** -/
theorem Quiet.liveAt_subset_reaching (hquiet : Quiet cfg values)
    (hi : i ∈ reachable cfg) (hk : k ≤ (cfg.block i).statements.length) :
    liveAt values cfg i k ⊆ reachingBefore cfg values i k := by
  have hhold : HoldLive values cfg (reaching cfg values) := by
    refine Fixpoint.untilStable_induction (HoldLive values cfg) (fun s hs => ?_) _
      hquiet.holdLive_initial
    exact Fixpoint.sweep_induction (HoldLive values cfg)
      (fun t j hj ht => hquiet.holdLive_update ht (mem_reachableIndices.1 hj)) hs
  exact hquiet.liveAt_subset_block hi (hhold i hi).1 k hk

/-! ### What definitely reaches -/

/-- What a path from the entry that does not come back to it passes before it is at a place. -/
inductive Fresh (cfg : LifetimeControlFlowGraph) : List (Event cfg) → cfg.Index → ℕ → Prop
  | entry {e : cfg.Index} (he : entryIndex cfg = some e) : Fresh cfg [] e 0
  | statement {events : List (Event cfg)} {i : cfg.Index} {done : ℕ} (hpath : Fresh cfg events i done)
      (hdone : done < (cfg.block i).statements.length) :
      Fresh cfg (events ++ [.statement i done]) i (done + 1)
  | edge {events : List (Event cfg)} {i j : cfg.Index}
      (hpath : Fresh cfg events i (cfg.block i).statements.length)
      (hj : j ∈ cfg.successorIndices i) (hentry : entryIndex cfg ≠ some j) :
      Fresh cfg (events ++ [.edge i j]) j 0

/-- A statement consumes an atom of a value. -/
def ConsumesPart (values : StableValueTable) (statement : LifetimeStatement) (v : ValueId) : Prop :=
  ∃ b ∈ values.atomsOf v, ∃ use ∈ statement.uses, use.consumes = true ∧ b ∈ values.atomsOf use.value

/-- A value is a parameter or defined on a path, and no later statement of the path consumes a part of
it. -/
def Present (values : StableValueTable) (cfg : LifetimeControlFlowGraph) (v : ValueId)
    (events : List (Event cfg)) : Prop :=
  events.foldl (fun present e =>
    e.Holds (Defines · v) ∨ present ∧ ¬ e.Holds (ConsumesPart values · v)) (v ∈ cfg.parameters)

/-- A value is present on every such path to a place. -/
def DefinitelyPresent (values : StableValueTable) (cfg : LifetimeControlFlowGraph) (v : ValueId)
    (i : cfg.Index) (done : ℕ) : Prop :=
  ∀ events, Fresh cfg events i done → Present values cfg v events

section Present

variable {v : ValueId} {i : cfg.Index} {k : ℕ}
variable {events : List (Event cfg)}

theorem present_concat (events : List (Event cfg)) (e : Event cfg) :
    Present values cfg v (events ++ [e]) ↔ e.Holds (Defines · v) ∨
      Present values cfg v events ∧ ¬ e.Holds (ConsumesPart values · v) := by
  rw [Present, List.foldl_append]
  rfl

theorem holds_statement {statement : LifetimeStatement}
    (hst : (cfg.block i).statements[k]? = some statement) (p : LifetimeStatement → Prop) :
    (Event.statement i k).Holds p ↔ p statement := by
  constructor
  · rintro ⟨statement', hst', hp⟩
    obtain rfl := Option.some.inj (hst.symm.trans hst')
    exact hp
  · exact fun hp => ⟨statement, hst, hp⟩

theorem Fresh.arrives (h : Fresh cfg events i k) : Arrives cfg events i k := by
  induction h with
  | entry he => exact .entry he
  | statement _ hdone ih => exact ih.statement hdone
  | edge _ hj _ ih => exact ih.edge hj

theorem Fresh.through (h : Fresh cfg events i 0) :
    ∀ k ≤ (cfg.block i).statements.length, ∃ events', Fresh cfg events' i k := by
  intro k
  induction k with
  | zero => exact fun _ => ⟨events, h⟩
  | succ k ih =>
      intro hk
      obtain ⟨events', hpath⟩ := ih (by omega)
      exact ⟨_, hpath.statement (by omega)⟩

theorem exists_fresh (hi : i ∈ reachable cfg) : ∃ events, Fresh cfg events i 0 := by
  obtain ⟨e, he, hpath⟩ := mem_reachable_iff.1 hi
  clear hi
  induction hpath with
  | refl => exact ⟨[], .entry he⟩
  | @tail i j _ hj ih =>
      by_cases hentry : entryIndex cfg = some j
      · exact ⟨[], .entry hentry⟩
      · obtain ⟨events, hpath⟩ := ih
        obtain ⟨events', hend⟩ := hpath.through _ le_rfl
        exact ⟨_, hend.edge hj hentry⟩

theorem not_consumesPart_iff {statement : LifetimeStatement} :
    ¬ ConsumesPart values statement v ↔
      ∀ b ∈ values.atomsOf v, ¬ 0 < statement.consumeCount values b := by
  unfold ConsumesPart
  simp only [consumeCount_pos]
  push Not
  rfl

/-- What reaches a place is present on every path to it, by induction on the path. -/
theorem present_of_mem (h : Fresh cfg events i k) :
    v ∈ reachingBefore cfg values i k → Present values cfg v events := by
  induction h with
  | @entry e he =>
      intro hv
      have hin : (reaching cfg values e).1 = parameters cfg := by
        rw [← reaching_stable (entry_mem_reachable he)]
        simp only [reachingTransfer, if_pos he]
      rw [reachingBefore, List.take_zero, transferReachingBlock, List.foldl_nil, hin] at hv
      exact List.mem_toFinset.1 hv
  | @statement events i done hpath hdone ih =>
      intro hv
      have hst := List.getElem?_eq_getElem hdone
      rw [reachingBefore_succ hst, mem_transferReachingStatement, ← not_consumesPart_iff] at hv
      rw [present_concat, holds_statement hst, holds_statement hst]
      exact hv.imp_right fun h => ⟨ih h.1, h.2⟩
  | @edge events i j hpath hj hentry ih =>
      intro hv
      have hi := hpath.arrives.mem_reachable
      have hj' := successor_mem_reachable hi hj
      rw [reachingBefore, List.take_zero, transferReachingBlock, List.foldl_nil,
        ← reaching_stable hj', mem_reachingTransfer_in hj' hentry] at hv
      have hout := hv.2 i (mem_predecessors.2 ⟨hi, hj⟩)
      rw [← reachingBefore_length hi] at hout
      exact (present_concat _ _).2 (.inr ⟨ih hout, id⟩)

/-- A value present on every path to a place inside a block reaches it, if it does at the start. -/
theorem mem_block_of_present {s : LiveValueSet} (hi : i ∈ reachable cfg)
    (hs : ∀ v, DefinitelyPresent values cfg v i 0 → v ∈ s) :
    ∀ k ≤ (cfg.block i).statements.length, ∀ v, DefinitelyPresent values cfg v i k →
      v ∈ transferReachingBlock values ((cfg.block i).statements.take k) s := by
  intro k
  induction k with
  | zero => exact fun _ => hs
  | succ k ih =>
      intro hk v hv
      have hlt : k < (cfg.block i).statements.length := hk
      have hst := List.getElem?_eq_getElem hlt
      have hstep : ∀ events, Fresh cfg events i k → Defines (cfg.block i).statements[k] v ∨
          Present values cfg v events ∧ ¬ ConsumesPart values (cfg.block i).statements[k] v := by
        intro events hpath
        have h := hv _ (hpath.statement hlt)
        rwa [present_concat, holds_statement hst, holds_statement hst] at h
      rw [List.take_succ_eq_append_getElem hlt, transferReachingBlock, List.foldl_append]
      refine mem_transferReachingStatement.2 ?_
      rw [← not_consumesPart_iff]
      by_cases hdef : Defines (cfg.block i).statements[k] v
      · exact .inl hdef
      · obtain ⟨events, hevents⟩ := exists_fresh hi
        obtain ⟨events', hpath⟩ := hevents.through k hlt.le
        refine .inr ⟨ih hlt.le v fun events hpath => ?_, ?_⟩
        · exact ((hstep events hpath).resolve_left hdef).1
        · exact ((hstep events' hpath).resolve_left hdef).2

/-- The values present on every path to the start and to the end of a reachable block are in its
sets. -/
def HoldPresent (values : StableValueTable) (cfg : LifetimeControlFlowGraph)
    (s : cfg.Index → LiveValueSet × LiveValueSet) : Prop :=
  ∀ i ∈ reachable cfg, ∀ v, (DefinitelyPresent values cfg v i 0 → v ∈ (s i).1) ∧
    (DefinitelyPresent values cfg v i (cfg.block i).statements.length → v ∈ (s i).2)

theorem holdPresent_out {s : LiveValueSet} (hi : i ∈ reachable cfg)
    (hs : ∀ v, DefinitelyPresent values cfg v i 0 → v ∈ s) :
    DefinitelyPresent values cfg v i (cfg.block i).statements.length →
      v ∈ transferReachingBlock values (cfg.block i).statements s := by
  intro hv
  have h := mem_block_of_present hi hs _ le_rfl v hv
  rwa [List.take_length] at h

theorem mem_universe_of_present (h : Present values cfg v events) : v ∈ reachingUniverse cfg := by
  induction events using List.reverseRecOn with
  | nil => exact Finset.mem_union_left _ (List.mem_toFinset.2 h)
  | append_singleton events e ih =>
      rcases (present_concat events e).1 h with hdef | ⟨hpresent, -⟩
      · cases e with
        | edge _ _ => exact hdef.elim
        | statement j k =>
            obtain ⟨statement, hst, hdef⟩ := hdef
            exact defined_subset_reachingUniverse (List.mem_of_getElem? hst) (mem_defined.2 hdef)
      · exact ih hpresent

theorem mem_universe_of_definitelyPresent (hi : i ∈ reachable cfg)
    (h : DefinitelyPresent values cfg v i 0) : v ∈ reachingUniverse cfg := by
  obtain ⟨events, hpath⟩ := exists_fresh hi
  exact mem_universe_of_present (h events hpath)

theorem mem_parameters_of_definitelyPresent (hentry : entryIndex cfg = some i)
    (h : DefinitelyPresent values cfg v i 0) : v ∈ parameters cfg :=
  List.mem_toFinset.2 (h [] (.entry hentry))

theorem holdPresent_update {s : cfg.Index → LiveValueSet × LiveValueSet}
    (h : HoldPresent values cfg s) {i : cfg.Index} (hi : i ∈ reachable cfg) :
    HoldPresent values cfg (Function.update s i (reachingTransfer cfg values s i)) := by
  have hin : ∀ v, DefinitelyPresent values cfg v i 0 → v ∈ (reachingTransfer cfg values s i).1 := by
    intro v hv
    by_cases hentry : entryIndex cfg = some i
    · simp only [reachingTransfer, if_pos hentry]
      exact mem_parameters_of_definitelyPresent hentry hv
    · rw [mem_reachingTransfer_in hi hentry]
      refine ⟨mem_universe_of_definitelyPresent hi hv, fun p hp => ?_⟩
      obtain ⟨hp, hsucc⟩ := mem_predecessors.1 hp
      refine (h p hp v).2 fun events hpath => ?_
      -- the edge changes nothing
      exact ((present_concat events (.edge p i)).1
        (hv _ (hpath.edge hsucc hentry))).elim False.elim And.left
  intro j hj v
  by_cases hji : j = i
  · subst hji
    rw [Function.update_self]
    exact ⟨hin v, holdPresent_out hj hin⟩
  · rw [Function.update_of_ne hji]
    exact h j hj v

theorem holdPresent_initial : HoldPresent values cfg (initialReaching cfg values) := by
  intro i hi v
  rw [initialReaching, if_pos hi]
  have hin : ∀ v, DefinitelyPresent values cfg v i 0 → v ∈
      if entryIndex cfg = some i then parameters cfg else reachingUniverse cfg := by
    intro v hv
    split_ifs with hentry
    · exact mem_parameters_of_definitelyPresent hentry hv
    · exact mem_universe_of_definitelyPresent hi hv
  exact ⟨hin v, holdPresent_out hi hin⟩

/-- **What definitely reaches a place is what is present on every path to it.** -/
theorem mem_reachingBefore_iff (hi : i ∈ reachable cfg) (hk : k ≤ (cfg.block i).statements.length) :
    v ∈ reachingBefore cfg values i k ↔ DefinitelyPresent values cfg v i k := by
  constructor
  · exact fun hv events hpath => present_of_mem hpath hv
  · have hhold : HoldPresent values cfg (reaching cfg values) := by
      refine Fixpoint.untilStable_induction (HoldPresent values cfg) (fun s hs => ?_) _
        holdPresent_initial
      exact Fixpoint.sweep_induction (HoldPresent values cfg)
        (fun t j hj ht => holdPresent_update ht (mem_reachableIndices.1 hj)) hs
    exact mem_block_of_present hi (fun v => (hhold i hi v).1) k hk v

end Present

/-! ### When a suggestion is made -/

/-- A statement uses or defines a value with an atom. -/
def UsesOrDefines (values : StableValueTable) (statement : LifetimeStatement) (a : AtomId) : Prop :=
  (∃ use ∈ statement.uses, a ∈ values.atomsOf use.value) ∨
    ∃ d ∈ statement.definitions, a ∈ values.atomsOf d

/-- Some path from a place reads a value with an atom first. -/
def NeededAt (values : StableValueTable) (cfg : LifetimeControlFlowGraph) (a : AtomId)
    (i : cfg.Index) (done : ℕ) : Prop :=
  ∃ v, a ∈ values.atomsOf v ∧ LivePath values cfg v i done

/-- A statement consumes or defines a value with an atom, or some value with the atom is there that the
statement consumes no part of. -/
def Retires (values : StableValueTable) (cfg : LifetimeControlFlowGraph) (a : AtomId) (i : cfg.Index)
    (k : ℕ) (statement : LifetimeStatement) : Prop :=
  (∃ use ∈ statement.uses, use.consumes = true ∧ a ∈ values.atomsOf use.value) ∨
    (∃ d ∈ statement.definitions, a ∈ values.atomsOf d) ∨
      ∃ v, a ∈ values.atomsOf v ∧ DefinitelyPresent values cfg v i k ∧ ¬ ConsumesPart values statement v

section Suggestions

variable {i j : cfg.Index} {k : ℕ} {statement : LifetimeStatement}

theorem neededAt_iff (hi : i ∈ reachable cfg) (hk : k ≤ (cfg.block i).statements.length) :
    NeededAt values cfg a i k ↔ ¬ DeadAt values cfg a i k := by
  unfold NeededAt DeadAt
  push Not
  constructor
  · rintro ⟨v, ha, hlive⟩
    exact ⟨v, (mem_liveAt_iff hi hk).2 hlive, ha⟩
  · rintro ⟨v, hlive, ha⟩
    exact ⟨v, ha, (mem_liveAt_iff hi hk).1 hlive⟩

theorem valuesForReachingAtom_isEmpty {reaching : LiveValueSet} :
    (valuesForReachingAtom values reaching a).isEmpty = false ↔
      ∃ v ∈ reaching, a ∈ values.atomsOf v := by
  rw [List.isEmpty_eq_false_iff_exists_mem]
  constructor
  · rintro ⟨v, hv⟩
    obtain ⟨hv, ha⟩ := List.mem_filter.1 hv
    exact ⟨v, mem_inOrder.1 hv, of_decide_eq_true ha⟩
  · rintro ⟨v, hv, ha⟩
    exact ⟨v, List.mem_filter.2 ⟨mem_inOrder.2 hv, decide_eq_true ha⟩⟩

/-- The values among which a statement looks for some to retire. -/
def retiring (values : StableValueTable) (cfg : LifetimeControlFlowGraph) (a : AtomId) (i : cfg.Index)
    (k : ℕ) (statement : LifetimeStatement) : LiveValueSet :=
  if 0 < statement.consumeCount values a then reachingBefore cfg values i k
  else reachingBefore cfg values i (k + 1)

theorem atomKill_eq_some {live : Bool} {kill : KillSuggestion}
    (h : atomKill cfg values i k statement live a = some kill) :
    kill.atom = a ∧ kill.boundary = ⟨(cfg.block i).id, k + 1⟩ ∧ live = false ∧
      ∃ v ∈ retiring values cfg a i k statement, a ∈ values.atomsOf v := by
  simp only [atomKill, Option.ite_none_left_eq_some, Option.some_inj] at h
  obtain ⟨hsafe, hretired, rfl⟩ := h
  simp only [Bool.or_eq_true, decide_eq_true_eq, not_or, Bool.not_eq_true] at hsafe
  rw [Bool.not_eq_true, valuesForReachingAtom_isEmpty] at hretired
  refine ⟨rfl, rfl, hsafe.1.2, ?_⟩
  simpa only [retiring, decide_eq_true_eq] using hretired

theorem exists_atomKill (hnotSafe : unsafeConsume values statement a = false)
    (hescape : a ∉ escapedAtoms cfg values)
    (hretiring : ∃ v ∈ retiring values cfg a i k statement, a ∈ values.atomsOf v) :
    ∃ kill, atomKill cfg values i k statement false a = some kill ∧ kill.atom = a ∧
      kill.boundary = ⟨(cfg.block i).id, k + 1⟩ := by
  have hempty := valuesForReachingAtom_isEmpty.2 hretiring
  have hsome : (atomKill cfg values i k statement false a).isSome = true := by
    simp only [atomKill, hnotSafe, hescape, Bool.or_false, decide_false, Bool.false_eq_true, if_false]
    rw [if_neg]
    · rfl
    · simpa only [retiring, decide_eq_true_eq, Bool.not_eq_true] using hempty
  obtain ⟨kill, hkill⟩ := Option.isSome_iff_exists.1 hsome
  obtain ⟨hatom, hboundary, -⟩ := atomKill_eq_some hkill
  exact ⟨kill, hkill, hatom, hboundary⟩

/-- The values a statement looks among hold one with the atom exactly when the statement retires it. -/
theorem Quiet.exists_retiring_iff (hquiet : Quiet cfg values) (hi : i ∈ reachable cfg)
    (hst : (cfg.block i).statements[k]? = some statement) :
    (∃ v ∈ retiring values cfg a i k statement, a ∈ values.atomsOf v) ↔
      Retires values cfg a i k statement := by
  obtain ⟨hlt, -⟩ := List.getElem?_eq_some_iff.1 hst
  unfold retiring Retires
  by_cases hconsume : 0 < statement.consumeCount values a
  · rw [if_pos hconsume]
    refine iff_of_true ?_ (.inl (consumeCount_pos.1 hconsume))
    -- what is consumed is live before the statement, and so it is there
    obtain ⟨use, huse, -, ha⟩ := consumeCount_pos.1 hconsume
    refine ⟨use.value, hquiet.liveAt_subset_reaching hi hlt.le ?_, ha⟩
    rw [liveAt_statement hst]
    exact mem_transferLivenessStatement.2 (.inl (.inl ⟨use, huse, rfl⟩))
  · rw [if_neg hconsume, reachingBefore_succ hst]
    have hnone : ¬ ∃ use ∈ statement.uses, use.consumes = true ∧ a ∈ values.atomsOf use.value :=
      fun h => hconsume (consumeCount_pos.2 h)
    constructor
    · rintro ⟨v, hv, ha⟩
      rw [mem_transferReachingStatement, ← not_consumesPart_iff] at hv
      rcases hv with hdef | ⟨hv, hwhole⟩
      · exact .inr (.inl ⟨v, hdef, ha⟩)
      · exact .inr (.inr ⟨v, ha, (mem_reachingBefore_iff hi hlt.le).1 hv, hwhole⟩)
    · rintro (h | ⟨d, hd, ha⟩ | ⟨v, ha, hv, hwhole⟩)
      · exact absurd h hnone
      · exact ⟨d, mem_transferReachingStatement.2 (.inl hd), ha⟩
      · refine ⟨v, mem_transferReachingStatement.2 (.inr ⟨?_, not_consumesPart_iff.1 hwhole⟩), ha⟩
        exact (mem_reachingBefore_iff hi hlt.le).2 hv

/-- **A statement gives up an atom exactly when it uses or defines a value with it, the atom is not
needed afterwards, and it retires the atom.** -/
theorem Quiet.killsOn_statement_iff (hquiet : Quiet cfg values) (hescape : a ∉ escapedAtoms cfg values)
    (hi : i ∈ reachable cfg) (hst : (cfg.block i).statements[k]? = some statement) :
    KillsOn values cfg a (.statement i k) ↔ UsesOrDefines values statement a ∧
      DeadAt values cfg a i (k + 1) ∧ Retires values cfg a i k statement := by
  rw [← hquiet.exists_retiring_iff hi hst]
  constructor
  · rintro ⟨kill, hkill, rfl, hboundary⟩
    rw [hquiet.checked.kills_eq] at hkill
    obtain ⟨i', hi', k', statement', hst', b, hb, hkill⟩ := mem_atomEvents hkill
    obtain ⟨hatom, hboundary', hdead, hretiring⟩ := atomKill_eq_some (Option.mem_toList.1 hkill)
    obtain ⟨hid, hk⟩ := StatementBoundary.mk.inj (hboundary.symm.trans hboundary')
    obtain rfl := hquiet.checked.id_injective i i' hid
    obtain rfl : k = k' := by omega
    obtain rfl := Option.some.inj (hst.symm.trans hst')
    rw [hatom]
    exact ⟨mem_factAtoms.1 hb, deadAt_iff.2 (of_decide_eq_false hdead), hretiring⟩
  · rintro ⟨huses, hdead, hretiring⟩
    obtain ⟨kill, hkill, hatom, hboundary⟩ :=
      exists_atomKill (hquiet.consume_safe i hi k statement hst a) hescape hretiring
    refine ⟨kill, ?_, hatom, hboundary⟩
    rw [hquiet.checked.kills_eq]
    refine mem_atomEvents_of hi hst (mem_factAtoms.2 huses) ?_
    rw [decide_eq_false (deadAt_iff.1 hdead)]
    exact Option.mem_toList.2 hkill

/-- **An edge gives up an atom exactly when the need for it ends there.** -/
theorem Quiet.killsOn_edge_iff (hquiet : Quiet cfg values) (hescape : a ∉ escapedAtoms cfg values)
    (hi : i ∈ reachable cfg) (hj : j ∈ cfg.successorIndices i) :
    KillsOn values cfg a (.edge i j) ↔
      ¬ DeadAt values cfg a i (cfg.block i).statements.length ∧ DeadAt values cfg a j 0 := by
  constructor
  · rintro ⟨kill, hkill, rfl, hboundary⟩
    rw [hquiet.checked.edgeKills_eq] at hkill
    obtain ⟨i', -, j', -, hboundary', hlive, hdead, -⟩ := mem_edgeKills hkill
    obtain ⟨hid, hid'⟩ := EdgeBoundary.mk.inj (hboundary.symm.trans hboundary')
    obtain rfl := hquiet.checked.id_injective i i' hid
    obtain rfl := hquiet.checked.id_injective j j' hid'
    exact ⟨hlive, hdead⟩
  · rintro ⟨hlive, hdead⟩
    rw [deadAt_iff, not_not, mem_atomsForValues] at hlive
    obtain ⟨v, hv, ha⟩ := hlive
    -- the live value definitely reaches the edge
    have hreaching : v ∈ (reaching cfg values i).2 := by
      rw [← reachingBefore_length hi]
      exact hquiet.liveAt_subset_reaching hi le_rfl hv
    rw [liveAt_length] at hv
    rw [deadAt_iff, liveAt_zero (successor_mem_reachable hi hj)] at hdead
    have hempty := valuesForReachingAtom_isEmpty.2 ⟨v, hreaching, ha⟩
    refine ⟨⟨edgeBoundary cfg (i, j), a, valuesForReachingAtom values (reaching cfg values i).2 a,
      .edgeExit, true⟩, ?_, rfl, rfl⟩
    rw [hquiet.checked.edgeKills_eq]
    refine List.mem_flatMap.2 ⟨(i, j), List.mem_flatMap.2 ⟨i, mem_reachableIndices.2 hi, ?_⟩, ?_⟩
    · exact List.mem_map.2 ⟨j, hj, rfl⟩
    · refine List.mem_filterMap.2 ⟨a, mem_inOrder.2 (mem_atomsForValues.2 ⟨v, hv, ha⟩), ?_⟩
      have hreachingAtoms := mem_atomsForValues.2 ⟨v, hreaching, ha⟩
      simp only [edgeAtomKill, hdead, hreachingAtoms, hescape, not_true_eq_false, or_self, if_false,
        hempty, Bool.false_eq_true]

end Suggestions

/-! ### Paths to the end -/

/-- The need for an atom does not end inside a statement of a list of events. -/
def EndsOutside (values : StableValueTable) (cfg : LifetimeControlFlowGraph) (a : AtomId)
    (events : List (Event cfg)) : Prop :=
  ∀ i k, Event.statement i k ∈ events → NeededAt values cfg a i k → NeededAt values cfg a i (k + 1)

/-- The last statement of a path that uses or defines a value with an atom is followed by events across
which the need for the atom ends on an edge; or the need ends with it, and it retires the atom. -/
def EndsCleanly (values : StableValueTable) (cfg : LifetimeControlFlowGraph) (a : AtomId)
    (i : cfg.Index) (k : ℕ) (statement : LifetimeStatement) (after : List (Event cfg)) : Prop :=
  (NeededAt values cfg a i (k + 1) ∧ EndsOutside values cfg a after) ∨
    (¬ NeededAt values cfg a i (k + 1) ∧ Retires values cfg a i k statement)

section Runs

variable {events : List (Event cfg)} {i j : cfg.Index} {k m : ℕ} {e : Event cfg}

theorem Arrives.of_statement (h : Arrives cfg (events ++ [.statement i k]) j m) :
    j = i ∧ m = k + 1 ∧ k < (cfg.block i).statements.length ∧ Arrives cfg events i k := by
  generalize hall : events ++ [Event.statement i k] = all at h
  cases h with
  | entry he => exact absurd hall (by simp)
  | statement hpath hdone =>
      obtain ⟨rfl, heq⟩ := List.append_inj' hall rfl
      obtain ⟨rfl, rfl⟩ := Event.statement.inj (List.singleton_inj.1 heq)
      exact ⟨rfl, rfl, hdone, hpath⟩
  | edge hpath hj =>
      obtain ⟨-, heq⟩ := List.append_inj' hall rfl
      exact absurd (List.singleton_inj.1 heq) (by simp)

theorem Arrives.of_edge {p q : cfg.Index} (h : Arrives cfg (events ++ [.edge p q]) j m) :
    j = q ∧ m = 0 ∧ q ∈ cfg.successorIndices p ∧
      Arrives cfg events p (cfg.block p).statements.length := by
  generalize hall : events ++ [Event.edge p q] = all at h
  cases h with
  | entry he => exact absurd hall (by simp)
  | statement hpath hdone =>
      obtain ⟨-, heq⟩ := List.append_inj' hall rfl
      exact absurd (List.singleton_inj.1 heq) (by simp)
  | edge hpath hj =>
      obtain ⟨rfl, heq⟩ := List.append_inj' hall rfl
      obtain ⟨rfl, rfl⟩ := Event.edge.inj (List.singleton_inj.1 heq)
      exact ⟨rfl, rfl, hj, hpath⟩

theorem Arrives.front {more : List (Event cfg)}
    (h : Arrives cfg (events ++ more) j m) : ∃ i k, Arrives cfg events i k := by
  induction more using List.reverseRecOn generalizing j m with
  | nil => exact ⟨j, m, by rwa [List.append_nil] at h⟩
  | append_singleton more e ih =>
      rw [← List.append_assoc] at h
      cases e with
      | statement i k => exact ih h.of_statement.2.2.2
      | edge p q => exact ih h.of_edge.2.2.2

theorem DefinesFresh.usesOrDefines {statement : LifetimeStatement}
    (h : DefinesFresh values statement a) : UsesOrDefines values statement a := by
  obtain ⟨d, hd, ha, -⟩ := h
  exact .inr ⟨d, hd, ha⟩

theorem endsOutside_concat :
    EndsOutside values cfg a (events ++ [e]) ↔ EndsOutside values cfg a events ∧
      EndsOutside values cfg a [e] := by
  unfold EndsOutside
  simp only [List.mem_append, or_imp, forall_and]

theorem endsOutside_edge (p q : cfg.Index) : EndsOutside values cfg a [.edge p q] := by
  intro i k hmem
  simp at hmem

theorem endsOutside_statement : EndsOutside values cfg a [.statement i k] ↔
    (NeededAt values cfg a i k → NeededAt values cfg a i (k + 1)) := by
  constructor
  · exact fun h => h i k (List.mem_singleton_self _)
  · intro h i' k' hmem
    obtain ⟨rfl, rfl⟩ := Event.statement.inj (List.mem_singleton.1 hmem)
    exact h

/-- What holds of the events after a statement, at a place with the atom: it has been given up nowhere
and is still needed, or its need has ended, and it was given up exactly if it ended outside of the
statements. -/
structure Settled (values : StableValueTable) (cfg : LifetimeControlFlowGraph) (a : AtomId)
    (needed : Prop) (after : List (Event cfg)) (j : cfg.Index) (m : ℕ) : Prop where
  of_dead : ¬ needed → DeadAt values cfg a j m ∧ ∀ e ∈ after, ¬ KillsOn values cfg a e
  of_live : needed → ¬ DeadAt values cfg a j m →
    EndsOutside values cfg a after ∧ ∀ e ∈ after, ¬ KillsOn values cfg a e
  of_ended : needed → DeadAt values cfg a j m →
    ((∃ e ∈ after, KillsOn values cfg a e) ↔ EndsOutside values cfg a after)

theorem Settled.nil : Settled values cfg a (¬ DeadAt values cfg a i k) [] i k where
  of_dead h := ⟨not_not.1 h, by simp⟩
  of_live _ _ := ⟨fun _ _ hmem => absurd hmem List.not_mem_nil, by simp⟩
  of_ended hlive hdead := absurd hdead hlive

theorem exists_kill_concat : (∃ e' ∈ events ++ [e], KillsOn values cfg a e') ↔
      (∃ e' ∈ events, KillsOn values cfg a e') ∨ KillsOn values cfg a e := by
  simp only [List.mem_append, List.mem_singleton, or_and_right, exists_or, exists_eq_left]

theorem not_kills_concat
    (h : ∀ e' ∈ events, ¬ KillsOn values cfg a e') (he : ¬ KillsOn values cfg a e) :
    ∀ e' ∈ events ++ [e], ¬ KillsOn values cfg a e' := by
  intro e' hmem
  rcases List.mem_append.1 hmem with hmem | hmem
  · exact h e' hmem
  · rw [List.mem_singleton.1 hmem]
    exact he

/-- A statement that does not use or define a value with the atom gives up nothing of it. -/
theorem Settled.statement (hquiet : Quiet cfg values) (hescape : a ∉ escapedAtoms cfg values)
    {needed : Prop} {after : List (Event cfg)} (hj : j ∈ reachable cfg)
    {statement : LifetimeStatement} (hst : (cfg.block j).statements[m]? = some statement)
    (hnot : ¬ UsesOrDefines values statement a) (h : Settled values cfg a needed after j m) :
    Settled values cfg a needed (after ++ [.statement j m]) j (m + 1) := by
  obtain ⟨hlt, -⟩ := List.getElem?_eq_some_iff.1 hst
  have hkill : ¬ KillsOn values cfg a (.statement j m) := fun hkill =>
    hnot ((hquiet.killsOn_statement_iff hescape hj hst).1 hkill).1
  have hdead : DeadAt values cfg a j m → DeadAt values cfg a j (m + 1) := fun hdead =>
    (hdead.statement hst).resolve_left fun hfresh => hnot hfresh.usesOrDefines
  have hends : EndsOutside values cfg a [.statement j m] ↔
      (¬ DeadAt values cfg a j m → ¬ DeadAt values cfg a j (m + 1)) := by
    rw [endsOutside_statement, neededAt_iff hj hlt.le, neededAt_iff hj hlt]
  constructor
  · intro hneeded
    obtain ⟨hdead', hnone⟩ := h.of_dead hneeded
    exact ⟨hdead hdead', not_kills_concat hnone hkill⟩
  · intro hneeded hlive
    obtain ⟨houtside, hnone⟩ := h.of_live hneeded (mt hdead hlive)
    exact ⟨endsOutside_concat.2 ⟨houtside, hends.2 fun _ => hlive⟩, not_kills_concat hnone hkill⟩
  · intro hneeded hend
    rw [exists_kill_concat, endsOutside_concat, hends]
    by_cases hdead' : DeadAt values cfg a j m
    -- the need has ended before
    · rw [h.of_ended hneeded hdead']
      simp [hkill, hdead']
    · obtain ⟨-, hnone⟩ := h.of_live hneeded hdead'
      refine iff_of_false ?_ fun hboth => hboth.2 hdead' hend
      rintro (⟨e, he, hkill'⟩ | hkill')
      · exact hnone e he hkill'
      · exact hkill hkill'

/-- An edge gives up the atom exactly when the need for it ends there. -/
theorem Settled.edge (hquiet : Quiet cfg values) (hescape : a ∉ escapedAtoms cfg values)
    {needed : Prop} {after : List (Event cfg)} {p q : cfg.Index} (hp : p ∈ reachable cfg)
    (hq : q ∈ cfg.successorIndices p)
    (h : Settled values cfg a needed after p (cfg.block p).statements.length) :
    Settled values cfg a needed (after ++ [.edge p q]) q 0 := by
  have hkill := hquiet.killsOn_edge_iff hescape hp hq
  have hdead : DeadAt values cfg a p (cfg.block p).statements.length → DeadAt values cfg a q 0 :=
    fun hdead => hdead.edge hp hq
  constructor
  · intro hneeded
    obtain ⟨hdead', hnone⟩ := h.of_dead hneeded
    exact ⟨hdead hdead', not_kills_concat hnone fun hk => (hkill.1 hk).1 hdead'⟩
  · intro hneeded hlive
    obtain ⟨houtside, hnone⟩ := h.of_live hneeded (mt hdead hlive)
    exact ⟨endsOutside_concat.2 ⟨houtside, endsOutside_edge p q⟩,
      not_kills_concat hnone fun hk => hlive (hkill.1 hk).2⟩
  · intro hneeded hend
    rw [exists_kill_concat, endsOutside_concat, hkill]
    by_cases hdead' : DeadAt values cfg a p (cfg.block p).statements.length
    · rw [h.of_ended hneeded hdead']
      simp [hdead', endsOutside_edge]
    · obtain ⟨houtside, -⟩ := h.of_live hneeded hdead'
      exact iff_of_true (.inr ⟨hdead', hend⟩) ⟨houtside, endsOutside_edge p q⟩

/-- The events after a statement, by induction on the path from it. -/
theorem Quiet.settled (hquiet : Quiet cfg values) (hescape : a ∉ escapedAtoms cfg values)
    {before : List (Event cfg)} (after : List (Event cfg))
    (hafter : ∀ e ∈ after, ¬ e.Holds (UsesOrDefines values · a)) :
    ∀ {j : cfg.Index} {m : ℕ}, Arrives cfg (before ++ [.statement i k] ++ after) j m →
      Settled values cfg a (¬ DeadAt values cfg a i (k + 1)) after j m := by
  induction after using List.reverseRecOn with
  | nil =>
      intro j m hpath
      rw [List.append_nil] at hpath
      obtain ⟨rfl, rfl, -, -⟩ := hpath.of_statement
      exact .nil
  | append_singleton after e ih =>
      intro j m hpath
      have hafter' : ∀ e ∈ after, ¬ e.Holds (UsesOrDefines values · a) := fun e' he' =>
        hafter e' (List.mem_append_left _ he')
      have hlast := hafter e (List.mem_append_right _ (List.mem_singleton_self e))
      rw [← List.append_assoc] at hpath
      cases e with
      | statement l n =>
          obtain ⟨rfl, rfl, hlt, hfront⟩ := hpath.of_statement
          have hst := List.getElem?_eq_getElem hlt
          rw [holds_statement hst] at hlast
          exact .statement hquiet hescape hfront.mem_reachable hst hlast (ih hafter' hfront)
      | edge p q =>
          obtain ⟨rfl, rfl, hq, hfront⟩ := hpath.of_edge
          exact .edge hquiet hescape hfront.mem_reachable hq (ih hafter' hfront)

theorem deadAt_end (hi : i ∈ reachable cfg) (hexit : (cfg.block i).successors = []) :
    DeadAt values cfg a i (cfg.block i).statements.length := by
  have hout : (liveness cfg values i).2 = ∅ := by
    rw [← liveness_stable values hi]
    simp [livenessTransfer, LifetimeControlFlowGraph.successorIndices, hexit]
  intro v hv
  rw [liveAt_length, hout] at hv
  exact absurd hv (Finset.notMem_empty v)

theorem not_mem_escapedAtoms (h : ∀ j, ReachableBlock cfg j → ∀ statement ∈ (cfg.block j).statements,
    ∀ use ∈ statement.uses, use.causesEscape = true → a ∉ values.atomsOf use.value) :
    a ∉ escapedAtoms cfg values := by
  intro hmem
  obtain ⟨j, hj, hmem⟩ := Finset.mem_biUnion.1 hmem
  obtain ⟨statement, hst, hmem⟩ := Finset.mem_biUnion.1 hmem
  obtain ⟨v, hv, ha⟩ := mem_atomsForValues.1 hmem
  obtain ⟨use, huse, rfl⟩ := List.mem_map.1 (List.mem_toFinset.1 hv)
  obtain ⟨huse, hcauses⟩ := List.mem_filter.1 huse
  exact h j (mem_reachable_iff.1 hj) statement (List.mem_toFinset.1 hst) use huse hcauses ha

end Runs

/-- **Where kill suggestions are complete.**  In an analysis without issues, a path from the entry to the
end of a block without successors gives up an atom that does not escape, at or after the last statement
that uses or defines a value with it, exactly when the need for the atom ends cleanly on it. -/
theorem kills_complete_iff (cfg : LifetimeControlFlowGraph) (values : StableValueTable)
    (hissues : (analyze cfg values).issues = []) (a : AtomId)
    (hescape : ∀ j, ReachableBlock cfg j → ∀ statement ∈ (cfg.block j).statements,
      ∀ use ∈ statement.uses, use.causesEscape = true → a ∉ values.atomsOf use.value)
    (before after : List (Event cfg))
    (i x : cfg.Index) (k : ℕ) (statement : LifetimeStatement)
    (hpath : Arrives cfg (before ++ [.statement i k] ++ after) x (cfg.block x).statements.length)
    (hexit : (cfg.block x).successors = [])
    (hst : (cfg.block i).statements[k]? = some statement)
    (huses : UsesOrDefines values statement a)
    (hlast : ∀ e ∈ after, ¬ e.Holds (UsesOrDefines values · a)) :
    (∃ e ∈ Event.statement i k :: after, KillsOn values cfg a e) ↔
      EndsCleanly values cfg a i k statement after := by
  have hquiet := quiet_of_issues hissues
  have hescape' := not_mem_escapedAtoms hescape
  obtain ⟨j, m, hfront⟩ := hpath.front
  obtain ⟨-, -, hlt, hplace⟩ := hfront.of_statement
  have hi := hplace.mem_reachable
  have hsettled := hquiet.settled hescape' after hlast hpath
  have hkill := hquiet.killsOn_statement_iff hescape' hi hst
  have hend : DeadAt values cfg a x (cfg.block x).statements.length :=
    deadAt_end hpath.mem_reachable hexit
  unfold EndsCleanly
  rw [neededAt_iff hi hlt, not_not]
  simp only [List.mem_cons, exists_eq_or_imp, hkill]
  by_cases hdead : DeadAt values cfg a i (k + 1)
  -- the need ends with the statement
  · obtain ⟨-, hnone⟩ := hsettled.of_dead (not_not.2 hdead)
    have hnone' : ¬ ∃ e ∈ after, KillsOn values cfg a e := by
      rintro ⟨e, he, hkills⟩
      exact hnone e he hkills
    simp [hdead, huses, hnone']
  -- the need ends on the way to the end
  · rw [hsettled.of_ended hdead hend]
    simp [hdead]

/-- A path that leaves the loop gives the value up on the way out. -/
theorem kills_complete_loop : ∃ i x : loopGraph.Index, i.val = 0 ∧ x.val = 2 ∧
    ((∃ e ∈ Event.statement i 0 :: [Event.edge i x], KillsOn loopTable loopGraph ⟨1⟩ e) ↔
      EndsCleanly loopTable loopGraph ⟨1⟩ i 0 ⟨[⟨1⟩], []⟩ [Event.edge i x]) := by
  have hentry : entryIndex loopGraph = some ⟨0, by decide⟩ := by decide +kernel
  have hfirst : Arrives loopGraph ([] ++ [.statement ⟨0, by decide⟩ 0]) ⟨0, by decide⟩ 1 :=
    (Arrives.entry hentry).statement (by decide)
  have hedge : (⟨2, by decide⟩ : loopGraph.Index) ∈ loopGraph.successorIndices ⟨0, by decide⟩ := by
    decide +kernel
  have hcalm : ∀ block ∈ loopGraph.blocks, ∀ statement ∈ block.statements, ∀ use ∈ statement.uses,
      use.causesEscape = false := by
    decide +kernel
  refine ⟨⟨0, by decide⟩, ⟨2, by decide⟩, rfl, rfl, kills_complete_iff loopGraph loopTable
    (by decide +kernel) ⟨1⟩ ?_ [] [.edge ⟨0, by decide⟩ ⟨2, by decide⟩] ⟨0, by decide⟩ ⟨2, by decide⟩ 0
    ⟨[⟨1⟩], []⟩ (hfirst.edge hedge) rfl rfl (.inr ⟨⟨1⟩, by decide, by decide +kernel⟩) ?_⟩
  · intro j _ statement hst use huse hcauses
    rw [hcalm _ (List.get_mem _ _) statement hst use huse] at hcauses
    exact absurd hcauses Bool.false_ne_true
  · intro e he
    rw [List.mem_singleton.1 he]
    exact id

/-- A value with an atom of its own and a field, and a value made from it that has only the field. -/
def fieldTable : StableValueTable :=
  ((StableValueTable.empty.registerValue
    { binding := ⟨1⟩, value := ⟨1⟩, atom := ⟨1⟩, leaves := [⟨[0], ⟨2⟩⟩] }).toOption.getD .empty
    |>.registerAtomRelation ⟨2⟩ ⟨2⟩ [⟨1⟩]).toOption.getD .empty

/-- A graph that defines the value, and then makes the other one from it. -/
def fieldGraph : LifetimeControlFlowGraph where
  entry := ⟨1⟩
  blocks := [⟨⟨1⟩, [⟨[⟨1⟩], []⟩, ⟨[⟨2⟩], []⟩], []⟩]

/-- The atom of the first value is given up nowhere on the path to the end. -/
theorem kills_incomplete : (analyze fieldGraph fieldTable).issues = [] ∧
    (analyze fieldGraph fieldTable).escapedAtoms = ∅ ∧ ∃ i : fieldGraph.Index,
      Arrives fieldGraph ([] ++ [.statement i 0] ++ [.statement i 1]) i
        (fieldGraph.block i).statements.length ∧
      (fieldGraph.block i).successors = [] ∧
      (fieldGraph.block i).statements[0]? = some ⟨[⟨1⟩], []⟩ ∧
      UsesOrDefines fieldTable ⟨[⟨1⟩], []⟩ ⟨1⟩ ∧
      (∀ e ∈ [Event.statement i 1], ¬ e.Holds (UsesOrDefines fieldTable · ⟨1⟩)) ∧
      ¬ ∃ e ∈ [Event.statement i 0, .statement i 1], KillsOn fieldTable fieldGraph ⟨1⟩ e := by
  have hentry : entryIndex fieldGraph = some ⟨0, by decide⟩ := by decide +kernel
  have hkills : ∀ kill ∈ (analyze fieldGraph fieldTable).kills, kill.atom ≠ ⟨1⟩ := by decide +kernel
  refine ⟨by decide +kernel, by decide +kernel, ⟨0, by decide⟩,
    ((Arrives.entry hentry).statement (by decide)).statement (by decide), rfl, rfl,
    .inr ⟨⟨1⟩, by decide, by decide +kernel⟩, ?_, ?_⟩
  · intro e he
    rw [List.mem_singleton.1 he]
    rintro ⟨statement, hst, huses⟩
    obtain rfl : (⟨[⟨2⟩], []⟩ : LifetimeStatement) = statement := Option.some.inj hst
    rcases huses with ⟨use, huse, -⟩ | ⟨d, hd, ha⟩
    · exact absurd huse List.not_mem_nil
    · obtain rfl := List.mem_singleton.1 hd
      exact absurd ha (by decide +kernel)
  · rintro ⟨e, he, hkill⟩
    rcases List.mem_cons.1 he with rfl | he
    · obtain ⟨kill, hkill, hatom, -⟩ := hkill
      exact hkills kill hkill hatom
    · rw [List.mem_singleton.1 he] at hkill
      obtain ⟨kill, hkill, hatom, -⟩ := hkill
      exact hkills kill hkill hatom

end AtomicProof.Lifetime
