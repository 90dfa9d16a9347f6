/-
Liveness is a property of paths.

The iteration of the lifetime analysis ends, and what it ends with is exact: a value is live at a place
when some path from there reads it before any statement of the path defines it.  The iteration starts
from empty sets, so every value it ever puts into a set has such a path; and it ends in a fixed point,
so no value that has one is missing.

Main definitions:

* `Lifetime.Reads`, `Lifetime.Defines` — what a statement does with a value;
* `Lifetime.LivePath` — some path from a place reads a value first.

Main results:

* `Lifetime.mem_reachable_iff` — the traversal marks the blocks that can be reached, and no others;
* `Lifetime.mem_liveAt_iff` — a value is live exactly where it has a path;
* `Lifetime.liveness_exact` — **the analysis reports exactly the live values**.
-/

import AtomicProof.LifetimeSound

set_option autoImplicit false

namespace AtomicProof.Lifetime

variable {cfg : LifetimeControlFlowGraph} {values : StableValueTable}
variable {i : cfg.Index} {v : ValueId}

/-! ### Reachable blocks -/

/-- The loop marks blocks only that it found marked or pending, or that come after one of these. -/
theorem visit_sound {p : cfg.Index → Prop} (hstep : ∀ i, p i → ∀ j ∈ cfg.successorIndices i, p j) :
    ∀ (fuel : ℕ) (marked : Finset cfg.Index) (pending : List cfg.Index), (∀ i ∈ marked, p i) →
      (∀ i ∈ pending, p i) → ∀ i ∈ visit cfg fuel marked pending, p i
  | 0, _, _, hmarked, _ => hmarked
  | _ + 1, _, [], hmarked, _ => hmarked
  | fuel + 1, marked, i :: pending, hmarked, hpending => by
      have hi := hpending i List.mem_cons_self
      have hrest : ∀ j ∈ pending, p j := fun j hj => hpending j (List.mem_cons_of_mem _ hj)
      rw [visit]
      split_ifs with hmem
      · exact visit_sound hstep fuel marked pending hmarked hrest
      · refine visit_sound hstep fuel _ _ (fun j hj => ?_) fun j hj => ?_
        · rcases Finset.mem_insert.1 hj with rfl | hj
          · exact hi
          · exact hmarked j hj
        · rcases List.mem_append.1 hj with hj | hj
          · exact hrest j hj
          · exact hstep i hi j hj

/-- **The traversal marks the blocks that can be reached.** -/
theorem mem_reachable_iff : i ∈ reachable cfg ↔ ReachableBlock cfg i := by
  constructor
  · refine visit_sound (p := ReachableBlock cfg) ?_ _ _ _ (by simp) ?_ i
    · rintro i ⟨e, he, hpath⟩ j hj
      exact ⟨e, he, hpath.tail hj⟩
    · intro e he
      rw [Option.mem_toList] at he
      exact ⟨e, he, Relation.ReflTransGen.refl⟩
  · exact mem_reachable_of_reachableBlock

/-! ### Live values -/

/-- A statement uses a value, or defines another one from it. -/
def Reads (values : StableValueTable) (statement : LifetimeStatement) (v : ValueId) : Prop :=
  (∃ use ∈ statement.uses, use.value = v) ∨
    (∃ d ∈ statement.definitions, v ∈ values.relationSources d) ∧ v ∉ statement.definitions

def Defines (statement : LifetimeStatement) (v : ValueId) : Prop := v ∈ statement.definitions

/-- Some path from the place after the first `done` statements of a block ends with a statement that
reads a value, and no earlier statement of the path defines it. -/
def LivePath (values : StableValueTable) (cfg : LifetimeControlFlowGraph) (v : ValueId)
    (i : cfg.Index) (done : ℕ) : Prop :=
  ∃ before event, Path cfg i done (before ++ [event]) ∧ event.Holds (Reads values · v) ∧
    ∀ e ∈ before, ¬ e.Holds (Defines · v)

theorem mem_transferLivenessStatement {statement : LifetimeStatement} {live : LiveValueSet}
    : v ∈ transferLivenessStatement values statement live ↔
      Reads values statement v ∨ v ∈ live ∧ ¬ Defines statement v := by
  unfold transferLivenessStatement Reads Defines
  rw [Finset.mem_union, Finset.mem_union, Finset.mem_sdiff, mem_defined, mem_outerSources, mem_used]
  constructor
  · rintro ((hlive | hsource) | huse)
    · exact .inr hlive
    · exact .inl (.inr hsource)
    · exact .inl (.inl huse)
  · rintro ((huse | hsource) | hlive)
    · exact .inr huse
    · exact .inl (.inr hsource)
    · exact .inl (.inl hlive)

section Step

variable {v : ValueId} {i : cfg.Index} {done : ℕ}

theorem LivePath.of_reads {statement : LifetimeStatement}
    (hst : (cfg.block i).statements[done]? = some statement) (h : Reads values statement v) :
    LivePath values cfg v i done := by
  obtain ⟨hlt, -⟩ := List.getElem?_eq_some_iff.1 hst
  exact ⟨[], .statement i done, .statement hlt (.nil i (done + 1)), ⟨statement, hst, h⟩, by simp⟩

theorem LivePath.statement {statement : LifetimeStatement}
    (hst : (cfg.block i).statements[done]? = some statement) (hdef : ¬ Defines statement v)
    (h : LivePath values cfg v i (done + 1)) : LivePath values cfg v i done := by
  obtain ⟨before, event, hpath, hread, hbefore⟩ := h
  obtain ⟨hlt, -⟩ := List.getElem?_eq_some_iff.1 hst
  refine ⟨.statement i done :: before, event, .statement hlt hpath, hread, fun e he => ?_⟩
  rcases List.mem_cons.1 he with rfl | he
  · rintro ⟨statement', hst', hdef'⟩
    obtain rfl := Option.some.inj (hst.symm.trans hst')
    exact hdef hdef'
  · exact hbefore e he

theorem LivePath.edge {j : cfg.Index} (hj : j ∈ cfg.successorIndices i)
    (h : LivePath values cfg v j 0) :
    LivePath values cfg v i (cfg.block i).statements.length := by
  obtain ⟨before, event, hpath, hread, hbefore⟩ := h
  refine ⟨.edge i j :: before, event, .edge hj hpath, hread, fun e he => ?_⟩
  rcases List.mem_cons.1 he with rfl | he
  · exact id
  · exact hbefore e he

end Step

/-! ### Every live value has a path -/

/-- Where the values live at the end of a block have paths, so do those live at its places. -/
theorem livePath_of_mem_block {out : LiveValueSet}
    (hout : ∀ v ∈ out, LivePath values cfg v i (cfg.block i).statements.length) :
    ∀ (rest done : ℕ), done + rest = (cfg.block i).statements.length →
      ∀ v ∈ transferLivenessBlock values ((cfg.block i).statements.drop done) out,
        LivePath values cfg v i done := by
  intro rest
  induction rest with
  | zero =>
      intro done hdone v hv
      obtain rfl : done = (cfg.block i).statements.length := hdone
      rw [List.drop_length] at hv
      exact hout v hv
  | succ rest ih =>
      intro done hdone v hv
      have hlt : done < (cfg.block i).statements.length := by omega
      rw [List.drop_eq_getElem_cons hlt] at hv
      have hst := List.getElem?_eq_getElem hlt
      rcases mem_transferLivenessStatement.1 hv with hread | ⟨hlive, hdef⟩
      · exact .of_reads hst hread
      · exact .statement hst hdef (ih (done + 1) (by omega) v hlive)

def HavePaths (values : StableValueTable) (cfg : LifetimeControlFlowGraph)
    (live : cfg.Index → LiveValueSet × LiveValueSet) : Prop :=
  ∀ i v, (v ∈ (live i).1 → LivePath values cfg v i 0) ∧
    (v ∈ (live i).2 → LivePath values cfg v i (cfg.block i).statements.length)

/-- One replacement of the iteration keeps the paths. -/
theorem HavePaths.update {live : cfg.Index → LiveValueSet × LiveValueSet}
    (h : HavePaths values cfg live) (i : cfg.Index) :
    HavePaths values cfg (Function.update live i (livenessTransfer cfg values live i)) := by
  have hout : ∀ v ∈ (livenessTransfer cfg values live i).2,
      LivePath values cfg v i (cfg.block i).statements.length := by
    intro v hv
    obtain ⟨j, hj, hv⟩ := Finset.mem_biUnion.1 hv
    exact .edge (List.mem_toFinset.1 hj) ((h j v).1 hv)
  intro k v
  by_cases hk : k = i
  · subst hk
    rw [Function.update_self]
    refine ⟨fun hv => ?_, hout v⟩
    exact livePath_of_mem_block hout _ 0 (Nat.zero_add _) v hv
  · rw [Function.update_of_ne hk]
    exact h k v

/-- **The iteration puts no value into a set that has no path.** -/
theorem havePaths_liveness (values : StableValueTable) (cfg : LifetimeControlFlowGraph) :
    HavePaths values cfg (liveness cfg values) := by
  refine Fixpoint.untilStable_induction (HavePaths values cfg) (fun live hlive => ?_) _ ?_
  · exact Fixpoint.sweep_induction (HavePaths values cfg) (fun s i _ hs => hs.update i) hlive
  · exact fun i v => ⟨fun hv => absurd hv (Finset.notMem_empty v),
      fun hv => absurd hv (Finset.notMem_empty v)⟩

/-! ### Every path is found -/

/-- A value with a path is live, by induction on the path: the sets are a fixed point. -/
theorem mem_liveAt_of_path {event : Event cfg} (hread : event.Holds (Reads values · v)) :
    ∀ (before : List (Event cfg)) (i : cfg.Index) (done : ℕ), i ∈ reachable cfg →
      Path cfg i done (before ++ [event]) → (∀ e ∈ before, ¬ e.Holds (Defines · v)) →
        v ∈ liveAt values cfg i done := by
  intro before
  induction before with
  | nil =>
      intro i done hi hpath _
      cases hpath with
      | statement hdone _ =>
          obtain ⟨statement, hst, hread⟩ := hread
          rw [liveAt_statement hst]
          exact mem_transferLivenessStatement.2 (.inl hread)
      | edge _ _ => exact hread.elim
  | cons e before ih =>
      intro i done hi hpath hbefore
      have hrest : ∀ e ∈ before, ¬ e.Holds (Defines · v) := fun e he =>
        hbefore e (List.mem_cons_of_mem _ he)
      cases hpath with
      | statement hdone hpath =>
          have hst := List.getElem?_eq_getElem hdone
          rw [liveAt_statement hst]
          refine mem_transferLivenessStatement.2 (.inr ⟨ih i (done + 1) hi hpath hrest, fun hdef => ?_⟩)
          exact hbefore _ List.mem_cons_self ⟨_, hst, hdef⟩
      | @edge _ j _ hedge hpath =>
          exact liveAt_end hi hedge (ih j 0 (successor_mem_reachable hi hedge) hpath hrest)

/-- **A value is live at a place of a reachable block exactly when some path from there reads it
first.** -/
theorem mem_liveAt_iff (hi : i ∈ reachable cfg) {done : ℕ}
    (hdone : done ≤ (cfg.block i).statements.length) :
    v ∈ liveAt values cfg i done ↔ LivePath values cfg v i done := by
  constructor
  · refine livePath_of_mem_block (fun v hv => ((havePaths_liveness values cfg) i v).2 hv)
      ((cfg.block i).statements.length - done) done (by omega) v
  · rintro ⟨before, event, hpath, hread, hbefore⟩
    exact mem_liveAt_of_path hread before i done hi hpath hbefore

/-! ### What the analysis reports -/

theorem liveAt_zero (hi : i ∈ reachable cfg) :
    liveAt values cfg i 0 = (liveness cfg values i).1 := by
  have hstable := liveness_stable values hi
  rw [liveAt, List.drop_zero]
  conv_rhs => rw [← hstable]
  conv_lhs => rw [← hstable]
  rfl

theorem liveAt_length (values : StableValueTable) (i : cfg.Index) :
    liveAt values cfg i (cfg.block i).statements.length = (liveness cfg values i).2 := by
  rw [liveAt, List.drop_length]
  rfl

/-- What `statements` holds of a statement of a block. -/
theorem getElem?_statementLiveness_live (liveOut : LiveValueSet) (sts : List LifetimeStatement)
    {k : ℕ} {live : StatementLiveness}
    (h : (statementLiveness values liveOut sts)[k]? = some live) :
    k < sts.length ∧ live.liveBefore = transferLivenessBlock values (sts.drop k) liveOut ∧
      live.liveAfter = transferLivenessBlock values (sts.drop (k + 1)) liveOut := by
  induction sts generalizing k with
  | nil => simp [statementLiveness] at h
  | cons statement rest ih =>
      cases k with
      | zero =>
          obtain rfl := Option.some_inj.1 h
          exact ⟨Nat.succ_pos _, rfl, rfl⟩
      | succ k =>
          obtain ⟨hlt, hbefore, hafter⟩ := ih h
          exact ⟨Nat.succ_lt_succ hlt, hbefore, hafter⟩

/-- What a block entry says is exactly what has a path. -/
structure ExactBlock (values : StableValueTable) (cfg : LifetimeControlFlowGraph) (i : cfg.Index)
    (b : BlockLiveness) : Prop where
  block_eq : b.block = (cfg.block i).id
  liveIn_iff : ∀ v, v ∈ b.liveIn ↔ LivePath values cfg v i 0
  liveOut_iff : ∀ v, v ∈ b.liveOut ↔ LivePath values cfg v i (cfg.block i).statements.length
  length_eq : b.statements.length = (cfg.block i).statements.length
  statement_iff : ∀ (k : ℕ) (live : StatementLiveness), b.statements[k]? = some live → ∀ v,
    (v ∈ live.liveBefore ↔ LivePath values cfg v i k) ∧
      (v ∈ live.liveAfter ↔ LivePath values cfg v i (k + 1))

theorem length_statementLiveness (liveOut : LiveValueSet) (sts : List LifetimeStatement) :
    (statementLiveness values liveOut sts).length = sts.length := by
  induction sts with
  | nil => rfl
  | cons statement rest ih =>
      rw [statementLiveness, List.length_cons, List.length_cons, ih]

theorem exactBlock (hi : i ∈ reachable cfg) :
    ExactBlock values cfg i (blockLiveness cfg values i) where
  block_eq := rfl
  liveIn_iff v := by
    rw [← mem_liveAt_iff hi (Nat.zero_le _), liveAt_zero hi]
    rfl
  liveOut_iff v := by
    rw [← mem_liveAt_iff hi le_rfl, liveAt_length]
    rfl
  length_eq := by
    simp only [blockLiveness, if_pos hi]
    exact length_statementLiveness _ _
  statement_iff k live h v := by
    simp only [blockLiveness, if_pos hi] at h
    obtain ⟨hlt, hbefore, hafter⟩ := getElem?_statementLiveness_live _ _ h
    rw [hbefore, hafter, ← mem_liveAt_iff hi hlt.le, ← mem_liveAt_iff hi hlt]
    exact ⟨Iff.rfl, Iff.rfl⟩

theorem mem_edges {edge : EdgeLiveness} (h : edge ∈ edges cfg values) :
    ∃ i ∈ reachable cfg, ∃ j ∈ cfg.successorIndices i,
      edge.boundary = ⟨(cfg.block i).id, (cfg.block j).id⟩ ∧
      edge.liveValues = (liveness cfg values j).1 := by
  obtain ⟨⟨i, j⟩, hedge, rfl⟩ := List.mem_map.1 h
  obtain ⟨i', hi, hedge⟩ := List.mem_flatMap.1 hedge
  obtain ⟨j', hj, heq⟩ := List.mem_map.1 hedge
  obtain ⟨rfl, rfl⟩ := Prod.mk.inj heq
  exact ⟨i', mem_reachableIndices.1 hi, j', hj, rfl, rfl⟩

/-- The rounds of the iteration of liveness. -/
def livenessRound (cfg : LifetimeControlFlowGraph) (values : StableValueTable) :
    (cfg.Index → LiveValueSet × LiveValueSet) → cfg.Index → LiveValueSet × LiveValueSet :=
  Fixpoint.sweep (livenessTransfer cfg values) (reachableIndices cfg).reverse

theorem liveness_ends (cfg : LifetimeControlFlowGraph) (values : StableValueTable) :
    ∃ rounds, liveness cfg values = (livenessRound cfg values)^[rounds] (fun _ => (∅, ∅)) ∧
      livenessRound cfg values (liveness cfg values) = liveness cfg values := by
  obtain ⟨rounds, h⟩ := Fixpoint.untilStable_eq_iterate (livenessRound cfg values)
    (cfg.blocks.length * (2 * (referencedValues cfg values).card)) fun _ => (∅, ∅)
  refine ⟨rounds, h, Fixpoint.sweep_eq_self fun i hi => ?_⟩
  exact liveness_stable values (mem_reachableIndices.1 (List.mem_reverse.1 hi))

/-- **Liveness is the exact property of paths, and its iteration ends.**  The iteration ends for every
graph; a value is live at a place of a reachable block, and on an edge out of one, exactly when some
path from there reads it before any statement of the path defines it; and this is what the analysis
reports, unless its earlier checks have ended it. -/
theorem liveness_exact (cfg : LifetimeControlFlowGraph) (values : StableValueTable) :
    (∃ rounds, liveness cfg values = (livenessRound cfg values)^[rounds] (fun _ => (∅, ∅)) ∧
      livenessRound cfg values (liveness cfg values) = liveness cfg values) ∧
    (∀ i, ReachableBlock cfg i → ExactBlock values cfg i (blockLiveness cfg values i)) ∧
    (∀ i, ReachableBlock cfg i → ∀ j ∈ cfg.successorIndices i, ∃ edge ∈ edges cfg values,
      edge.boundary = ⟨(cfg.block i).id, (cfg.block j).id⟩) ∧
    (∀ edge ∈ edges cfg values, ∃ i j, ReachableBlock cfg i ∧ j ∈ cfg.successorIndices i ∧
      edge.boundary = ⟨(cfg.block i).id, (cfg.block j).id⟩ ∧
      ∀ v, v ∈ edge.liveValues ↔ LivePath values cfg v j 0) ∧
    ((analyze cfg values).blocks = [] ∧ (analyze cfg values).edges = [] ∧
        (structureIssues cfg values ≠ [] ∨ definitionIssues cfg values ≠ [] ∨
          availabilityIssues cfg values ≠ []) ∨
      (analyze cfg values).blocks = (List.finRange cfg.blocks.length).map (blockLiveness cfg values) ∧
        (analyze cfg values).edges = edges cfg values) := by
  refine ⟨liveness_ends cfg values, fun i hi => exactBlock (mem_reachable_iff.2 hi), ?_, ?_, ?_⟩
  · intro i hi j hj
    refine ⟨_, List.mem_map.2 ⟨(i, j), List.mem_flatMap.2 ⟨i, ?_, ?_⟩, rfl⟩, rfl⟩
    · exact mem_reachableIndices.2 (mem_reachable_iff.2 hi)
    · exact List.mem_map.2 ⟨j, hj, rfl⟩
  · intro edge hedge
    obtain ⟨i, hi, j, hj, hboundary, hlive⟩ := mem_edges hedge
    have hj' := successor_mem_reachable hi hj
    refine ⟨i, j, mem_reachable_iff.1 hi, hj, hboundary, fun v => ?_⟩
    rw [hlive, ← liveAt_zero hj', mem_liveAt_iff hj' (Nat.zero_le _)]
  · unfold analyze
    split_ifs with hstructure hdefinition havailable
    · exact .inl ⟨rfl, rfl, .inl hstructure⟩
    · exact .inl ⟨rfl, rfl, .inr (.inl hdefinition)⟩
    · exact .inl ⟨rfl, rfl, .inr (.inr havailable)⟩
    · exact .inr ⟨rfl, rfl⟩

/-- The value of a loop is live before its use and dead after it. -/
theorem liveness_exact_loop :
    ∃ i : loopGraph.Index, i.val = 1 ∧
      ExactBlock loopTable loopGraph i (blockLiveness loopGraph loopTable i) := by
  have hreachable : (⟨1, by decide⟩ : loopGraph.Index) ∈ reachable loopGraph := by decide +kernel
  exact ⟨_, rfl, (liveness_exact loopGraph loopTable).2.1 _ (mem_reachable_iff.1 hreachable)⟩

end AtomicProof.Lifetime
