/-
Kill suggestions are safe.

A place in a graph is *dead* for an atom when no value that may be live there has it.  Running on
from a dead place, no statement reads a value with the atom and no edge of the graph gives it up
again, until a statement makes the atom anew.

Main definitions:

* `Lifetime.Path` — the finite paths of a graph, from any place in a block;
* `Lifetime.Touches`, `Lifetime.DefinesFresh` — what a statement does with an atom;
* `Lifetime.KilledAt`, `Lifetime.KillsOn` — the suggestions, at places and along paths;
* `Lifetime.DeadAt` — no live value has the atom.

Main results:

* `Lifetime.DeadAt.statement`, `Lifetime.DeadAt.edge` — one step from a dead place;
* `Lifetime.DeadAt.path` — a path from a dead place;
* `Lifetime.kills_safe` — **the suggestions of an analysis without issues are safe**.
-/

import AtomicProof.LifetimeFixpoints
import Mathlib.Logic.Relation

set_option autoImplicit false

namespace AtomicProof.Lifetime

/-! ### Paths -/

/-- What a path passes: a statement of a block, or an edge. -/
inductive Event (cfg : LifetimeControlFlowGraph)
  | statement (i : cfg.Index) (statementIndex : ℕ)
  | edge (i j : cfg.Index)
  deriving DecidableEq

/-- The finite paths from the place after the first `done` statements of a block. -/
inductive Path (cfg : LifetimeControlFlowGraph) : cfg.Index → ℕ → List (Event cfg) → Prop
  | nil (i : cfg.Index) (done : ℕ) : Path cfg i done []
  | statement {i : cfg.Index} {done : ℕ} {events : List (Event cfg)}
      (hdone : done < (cfg.block i).statements.length) (hrest : Path cfg i (done + 1) events) :
      Path cfg i done (.statement i done :: events)
  | edge {i j : cfg.Index} {events : List (Event cfg)} (hedge : j ∈ cfg.successorIndices i)
      (hrest : Path cfg j 0 events) :
      Path cfg i (cfg.block i).statements.length (.edge i j :: events)

/-- A block that can be reached from the entry. -/
def ReachableBlock (cfg : LifetimeControlFlowGraph) (i : cfg.Index) : Prop :=
  ∃ e, cfg.indexOf cfg.entry = some e ∧
    Relation.ReflTransGen (fun i j => j ∈ cfg.successorIndices i) e i

section Atoms

variable (values : StableValueTable)

/-- A statement uses a value with an atom, or makes an alias or a merge from an earlier one. -/
def Touches (statement : LifetimeStatement) (a : AtomId) : Prop :=
  (∃ use ∈ statement.uses, a ∈ values.atomsOf use.value) ∨
    ∃ d ∈ statement.definitions, ∃ s ∈ values.relationSources d,
      s ∉ statement.definitions ∧ a ∈ values.atomsOf s

/-- A statement defines a value with an atom that has no source outside the statement. -/
def DefinesFresh (statement : LifetimeStatement) (a : AtomId) : Prop :=
  ∃ d ∈ statement.definitions, a ∈ values.atomsOf d ∧
    ∀ s ∈ values.relationSources d, s ∈ statement.definitions

variable (cfg : LifetimeControlFlowGraph)

/-- The statement that an event passes satisfies `p`. -/
def Event.Holds {cfg : LifetimeControlFlowGraph} (p : LifetimeStatement → Prop) : Event cfg → Prop
  | .statement i k => ∃ statement, (cfg.block i).statements[k]? = some statement ∧ p statement
  | .edge _ _ => False

/-- A suggestion gives up an atom at the place after the first `done` statements of a block, or on
an edge into the block. -/
def KilledAt (a : AtomId) (i : cfg.Index) (done : ℕ) : Prop :=
  (∃ kill ∈ (analyze cfg values).kills, kill.atom = a ∧
      kill.boundary = ⟨(cfg.block i).id, done⟩) ∨
    (done = 0 ∧ ∃ kill ∈ (analyze cfg values).edgeKills, ∃ j, kill.atom = a ∧
      kill.boundary = ⟨(cfg.block j).id, (cfg.block i).id⟩)

/-- A suggestion gives up an atom right after an event of a path. -/
def KillsOn (a : AtomId) : Event cfg → Prop
  | .statement i k => ∃ kill ∈ (analyze cfg values).kills, kill.atom = a ∧
      kill.boundary = ⟨(cfg.block i).id, k + 1⟩
  | .edge i j => ∃ kill ∈ (analyze cfg values).edgeKills, kill.atom = a ∧
      kill.boundary = ⟨(cfg.block i).id, (cfg.block j).id⟩

end Atoms

variable {cfg : LifetimeControlFlowGraph} {values : StableValueTable} {a : AtomId}
variable {i j : cfg.Index} {done : ℕ}

/-! ### Graphs without issues -/

/-- Without block issues the blocks have different valid ids. -/
theorem ids_of_blockIssues : ∀ (seen : List BasicBlockId) (blocks : List LifetimeBasicBlock),
    blockIssues seen blocks = [] →
      (∀ b ∈ blocks, b.id.valid = true ∧ b.id ∉ seen) ∧ (blocks.map (·.id)).Nodup
  | _, [], _ => ⟨by simp, by simp⟩
  | seen, block :: rest, h => by
      rw [blockIssues] at h
      split_ifs at h with hbad
      rw [Bool.or_eq_true, not_or, Bool.not_eq_true', Bool.not_eq_false, List.contains_iff_mem]
        at hbad
      obtain ⟨hids, hnodup⟩ := ids_of_blockIssues (block.id :: seen) rest h
      constructor
      · intro b hb
        rcases List.mem_cons.1 hb with rfl | hb
        · exact hbad
        · obtain ⟨hvalid, hseen⟩ := hids b hb
          exact ⟨hvalid, fun hmem => hseen (List.mem_cons_of_mem _ hmem)⟩
      · rw [List.map_cons, List.nodup_cons]
        refine ⟨fun hmem => ?_, hnodup⟩
        obtain ⟨b, hb, hid⟩ := List.mem_map.1 hmem
        exact (hids b hb).2 (hid ▸ List.mem_cons_self)

/-- What an analysis without issues has found. -/
structure Checked (cfg : LifetimeControlFlowGraph) (values : StableValueTable) : Prop where
  id_injective : ∀ i j : cfg.Index, (cfg.block i).id = (cfg.block j).id → i = j
  kills_eq : (analyze cfg values).kills = kills cfg values
  edgeKills_eq : (analyze cfg values).edgeKills = edgeKills cfg values

theorem checked_of_issues (h : (analyze cfg values).issues = []) : Checked cfg values := by
  unfold analyze at h
  split_ifs at h with hstructure hdefinition havailable
  · exact absurd h hstructure
  · exact absurd h hdefinition
  · exact absurd h havailable
  · have hids : blockIssues [] cfg.blocks = [] := by
      rw [not_not, structureIssues] at hstructure
      simp only [List.append_eq_nil_iff] at hstructure
      exact hstructure.1.1.1
    refine ⟨fun i j hij => ?_, ?_, ?_⟩
    · have hnodup := (ids_of_blockIssues [] cfg.blocks hids).2
      have hinj := List.nodup_iff_injective_get.1 hnodup
      have hget : (cfg.blocks.map (·.id)).get (i.cast (by simp)) =
          (cfg.blocks.map (·.id)).get (j.cast (by simp)) := by
        simpa [LifetimeControlFlowGraph.block] using hij
      simpa [Fin.ext_iff] using hinj hget
    · rw [analyze, if_neg hstructure, if_neg hdefinition, if_neg havailable]
    · rw [analyze, if_neg hstructure, if_neg hdefinition, if_neg havailable]

theorem mem_reachable_of_reachableBlock (h : ReachableBlock cfg i) : i ∈ reachable cfg := by
  obtain ⟨e, he, hpath⟩ := h
  induction hpath with
  | refl => exact entry_mem_reachable he
  | tail _ hstep ih => exact successor_mem_reachable ih hstep

/-! ### Dead places -/

/-- The values that may be live after the first `done` statements of a block. -/
def liveAt (values : StableValueTable) (cfg : LifetimeControlFlowGraph) (i : cfg.Index)
    (done : ℕ) : LiveValueSet :=
  transferLivenessBlock values ((cfg.block i).statements.drop done) (liveness cfg values i).2

/-- No value that may be live after the first `done` statements of a block has the atom. -/
def DeadAt (values : StableValueTable) (cfg : LifetimeControlFlowGraph) (a : AtomId)
    (i : cfg.Index) (done : ℕ) : Prop :=
  ∀ v ∈ liveAt values cfg i done, a ∉ values.atomsOf v

theorem deadAt_iff :
    DeadAt values cfg a i done ↔ a ∉ atomsForValues values (liveAt values cfg i done) := by
  simp [DeadAt, atomsForValues]

theorem mem_defined {statement : LifetimeStatement} {v : ValueId} :
    v ∈ statement.defined ↔ v ∈ statement.definitions :=
  List.mem_toFinset

theorem mem_outerSources {statement : LifetimeStatement} {s : ValueId} :
    s ∈ statement.outerSources values ↔
      (∃ d ∈ statement.definitions, s ∈ values.relationSources d) ∧ s ∉ statement.definitions := by
  simp [LifetimeStatement.outerSources, LifetimeStatement.defined]

theorem mem_used {statement : LifetimeStatement} {v : ValueId} :
    v ∈ statement.used ↔ ∃ use ∈ statement.uses, use.value = v := by
  simp [LifetimeStatement.used]

theorem liveAt_statement {statement : LifetimeStatement}
    (h : (cfg.block i).statements[done]? = some statement) :
    liveAt values cfg i done =
      transferLivenessStatement values statement (liveAt values cfg i (done + 1)) := by
  obtain ⟨hlt, rfl⟩ := List.getElem?_eq_some_iff.1 h
  rw [liveAt, List.drop_eq_getElem_cons hlt]
  rfl

/-- The values live at the end of a block are those live at the start of its successors. -/
theorem liveAt_end (hi : i ∈ reachable cfg) (hj : j ∈ cfg.successorIndices i) :
    liveAt values cfg j 0 ⊆ liveAt values cfg i (cfg.block i).statements.length := by
  have hi' := liveness_stable values hi
  have hj' := liveness_stable values (successor_mem_reachable hi hj)
  have hend : liveAt values cfg i (cfg.block i).statements.length = (liveness cfg values i).2 := by
    rw [liveAt, List.drop_length]
    rfl
  have hstart : liveAt values cfg j 0 = (liveness cfg values j).1 := by
    rw [liveAt, List.drop_zero, ← hj']
    rfl
  rw [hend, hstart, ← hi']
  exact Finset.subset_biUnion_of_mem (fun successor => (liveness cfg values successor).1)
    (List.mem_toFinset.2 hj)

theorem DeadAt.not_touches (h : DeadAt values cfg a i done)
    {statement : LifetimeStatement} (hst : (cfg.block i).statements[done]? = some statement) :
    ¬ Touches values statement a := by
  rw [DeadAt, liveAt_statement hst] at h
  rintro (⟨use, huse, ha⟩ | ⟨d, hd, s, hs, hout, ha⟩)
  · exact h use.value (Finset.mem_union_right _ (mem_used.2 ⟨use, huse, rfl⟩)) ha
  · refine h s (Finset.mem_union_left _ (Finset.mem_union_right _ ?_)) ha
    exact mem_outerSources.2 ⟨⟨d, hd, hs⟩, hout⟩

theorem definesFresh_of_definition {statement : LifetimeStatement}
    (htouch : ¬ Touches values statement a) {d : ValueId} (hd : d ∈ statement.definitions)
    (ha : a ∈ values.atomsOf d) : DefinesFresh values statement a := by
  rcases values.exists_root statement.defined (mem_defined.2 hd) ha with
    ⟨w, hw, hroot, haw⟩ | ⟨w, hw, s, hs, hout, has⟩
  · refine ⟨w, mem_defined.1 hw, haw, fun s hs => ?_⟩
    rw [hroot] at hs
    simp at hs
  · exact absurd (.inr ⟨w, mem_defined.1 hw, s, hs, fun h => hout (mem_defined.2 h), has⟩) htouch

/-- **A statement leaves a dead place dead, or makes the atom anew.** -/
theorem DeadAt.statement (h : DeadAt values cfg a i done)
    {statement : LifetimeStatement} (hst : (cfg.block i).statements[done]? = some statement) :
    DefinesFresh values statement a ∨ DeadAt values cfg a i (done + 1) := by
  by_cases hdef : ∃ d ∈ statement.definitions, a ∈ values.atomsOf d
  · obtain ⟨d, hd, ha⟩ := hdef
    exact .inl (definesFresh_of_definition (h.not_touches hst) hd ha)
  · refine .inr fun v hv ha => ?_
    -- a value live afterwards is live before, unless the statement defines it
    have hnot : v ∉ statement.definitions := fun hd => hdef ⟨v, hd, ha⟩
    rw [DeadAt, liveAt_statement hst] at h
    refine h v (Finset.mem_union_left _ (Finset.mem_union_left _ ?_)) ha
    exact Finset.mem_sdiff.2 ⟨hv, fun hd => hnot (mem_defined.1 hd)⟩

theorem DeadAt.edge
    (h : DeadAt values cfg a i (cfg.block i).statements.length) (hi : i ∈ reachable cfg)
    (hj : j ∈ cfg.successorIndices i) : DeadAt values cfg a j 0 :=
  fun v hv => h v (liveAt_end hi hj hv)

/-! ### Suggestions -/

/-- What the places of the statements of a block hold in `statements`. -/
theorem getElem?_statementLiveness (liveOut : LiveValueSet) (sts : List LifetimeStatement)
    {k : ℕ} {live : StatementLiveness}
    (h : (statementLiveness values liveOut sts)[k]? = some live) :
    live.liveAtomsAfter =
      atomsForValues values (transferLivenessBlock values (sts.drop (k + 1)) liveOut) := by
  induction sts generalizing k with
  | nil => simp [statementLiveness] at h
  | cons statement rest ih =>
      cases k with
      | zero =>
          obtain rfl := Option.some_inj.1 h
          rfl
      | succ k => exact ih h

/-- A result of the loop over the atoms comes from an atom of a statement of a reachable block,
with the atoms live after the statement. -/
theorem mem_atomEvents {α : Type} {x : α}
    {event : cfg.Index → ℕ → LifetimeStatement → Bool → AtomId → List α}
    (h : x ∈ atomEvents cfg values event) :
    ∃ i ∈ reachable cfg, ∃ k statement, (cfg.block i).statements[k]? = some statement ∧
      ∃ b ∈ factAtoms values statement,
        x ∈ event i k statement
          (decide (b ∈ atomsForValues values (liveAt values cfg i (k + 1)))) b := by
  obtain ⟨i, hi, h⟩ := List.mem_flatMap.1 h
  obtain ⟨⟨⟨statement, live⟩, k⟩, hp, h⟩ := List.mem_flatMap.1 h
  obtain ⟨b, hb, h⟩ := List.mem_flatMap.1 h
  rw [mem_reachableIndices] at hi
  rw [List.mk_mem_zipIdx_iff_getElem?, List.getElem?_zip_eq_some] at hp
  obtain ⟨hst, hlive⟩ := hp
  simp only [blockLiveness, if_pos hi] at hlive
  rw [getElem?_statementLiveness _ _ hlive] at h
  exact ⟨i, hi, k, statement, hst, b, mem_inOrder.1 hb, h⟩

theorem mem_kills {kill : KillSuggestion} (h : kill ∈ kills cfg values) :
    ∃ i ∈ reachable cfg, ∃ k statement, (cfg.block i).statements[k]? = some statement ∧
      kill.boundary = ⟨(cfg.block i).id, k + 1⟩ ∧ kill.atom ∈ factAtoms values statement ∧
      DeadAt values cfg kill.atom i (k + 1) ∧ kill.atom ∉ escapedAtoms cfg values := by
  obtain ⟨i, hi, k, statement, hst, b, hb, hkill⟩ := mem_atomEvents h
  rw [Option.mem_toList] at hkill
  simp only [atomKill, Option.ite_none_left_eq_some, Option.some_inj] at hkill
  obtain ⟨hsafe, -, rfl⟩ := hkill
  simp only [Bool.or_eq_true, decide_eq_true_eq, not_or] at hsafe
  exact ⟨i, hi, k, statement, hst, rfl, hb, deadAt_iff.2 hsafe.1.2, hsafe.2⟩

/-- What holds where an edge gives up an atom. -/
theorem mem_edgeKills {kill : EdgeKillSuggestion} (h : kill ∈ edgeKills cfg values) :
    ∃ i ∈ reachable cfg, ∃ j ∈ cfg.successorIndices i,
      kill.boundary = ⟨(cfg.block i).id, (cfg.block j).id⟩ ∧
      ¬ DeadAt values cfg kill.atom i (cfg.block i).statements.length ∧
      DeadAt values cfg kill.atom j 0 ∧ kill.atom ∉ escapedAtoms cfg values := by
  obtain ⟨⟨i, j⟩, hedge, hkill⟩ := List.mem_flatMap.1 h
  obtain ⟨b, hb, hkill⟩ := List.mem_filterMap.1 hkill
  obtain ⟨i', hi, hedge⟩ := List.mem_flatMap.1 hedge
  obtain ⟨j', hj, heq⟩ := List.mem_map.1 hedge
  obtain ⟨rfl, rfl⟩ := Prod.mk.inj heq
  rw [mem_reachableIndices] at hi
  simp only [edgeAtomKill, Option.ite_none_left_eq_some, Option.some_inj] at hkill
  obtain ⟨hsafe, -, rfl⟩ := hkill
  simp only [not_or] at hsafe
  refine ⟨i', hi, j', hj, rfl, ?_, ?_, hsafe.2.2⟩
  · rw [deadAt_iff, not_not, liveAt, List.drop_length]
    exact mem_inOrder.1 hb
  · have hstable := liveness_stable values (successor_mem_reachable hi hj)
    rw [deadAt_iff, liveAt, List.drop_zero]
    have hstart : transferLivenessBlock values (cfg.block j').statements
        (liveness cfg values j').2 = (liveness cfg values j').1 := by
      rw [← hstable]
      rfl
    rw [hstart]
    exact hsafe.1

/-- **A suggestion is made where the atom is dead**, and not for an atom that escapes. -/
theorem KilledAt.dead (hchecked : Checked cfg values) (h : KilledAt values cfg a i done) :
    i ∈ reachable cfg ∧ DeadAt values cfg a i done ∧ a ∉ escapedAtoms cfg values := by
  rcases h with ⟨kill, hkill, rfl, hboundary⟩ | ⟨rfl, kill, hkill, j, rfl, hboundary⟩
  · rw [hchecked.kills_eq] at hkill
    obtain ⟨i', hi, k, statement, -, hboundary', -, hdead, hescape⟩ := mem_kills hkill
    obtain ⟨hid, hdone⟩ := StatementBoundary.mk.inj (hboundary.symm.trans hboundary')
    obtain rfl := hchecked.id_injective i i' hid
    exact ⟨hi, hdone ▸ hdead, hescape⟩
  · rw [hchecked.edgeKills_eq] at hkill
    obtain ⟨i', hi, j', hj, hboundary', -, hdead, hescape⟩ := mem_edgeKills hkill
    obtain ⟨-, hid⟩ := EdgeBoundary.mk.inj (hboundary.symm.trans hboundary')
    obtain rfl := hchecked.id_injective i j' hid
    exact ⟨successor_mem_reachable hi hj, hdead, hescape⟩

/-- A statement at a dead place that gives up the atom makes it anew. -/
theorem DeadAt.killsOn_statement (hchecked : Checked cfg values) {k : ℕ}
    (h : DeadAt values cfg a i k) {statement : LifetimeStatement}
    (hst : (cfg.block i).statements[k]? = some statement)
    (hkill : KillsOn values cfg a (.statement i k)) : DefinesFresh values statement a := by
  obtain ⟨kill, hkill, rfl, hboundary⟩ := hkill
  rw [hchecked.kills_eq] at hkill
  obtain ⟨i', -, k', statement', hst', hboundary', hfact, -⟩ := mem_kills hkill
  obtain ⟨hid, hk⟩ := StatementBoundary.mk.inj (hboundary.symm.trans hboundary')
  obtain rfl := hchecked.id_injective i i' hid
  obtain rfl : k = k' := by omega
  obtain rfl := Option.some_inj.1 (hst.symm.trans hst')
  have htouch := h.not_touches hst
  rcases Finset.mem_union.1 hfact with hdef | huse
  · obtain ⟨d, hd, ha⟩ := Finset.mem_biUnion.1 hdef
    exact definesFresh_of_definition htouch (mem_defined.1 hd) ha
  · obtain ⟨v, hv, ha⟩ := Finset.mem_biUnion.1 huse
    obtain ⟨use, hmem, rfl⟩ := mem_used.1 hv
    exact absurd (.inl ⟨use, hmem, ha⟩) htouch

theorem DeadAt.not_killsOn_edge (hchecked : Checked cfg values)
    (h : DeadAt values cfg a i (cfg.block i).statements.length) :
    ¬ KillsOn values cfg a (.edge i j) := by
  rintro ⟨kill, hkill, rfl, hboundary⟩
  rw [hchecked.edgeKills_eq] at hkill
  obtain ⟨i', -, j', -, hboundary', hlive, -⟩ := mem_edgeKills hkill
  obtain ⟨hid, -⟩ := EdgeBoundary.mk.inj (hboundary.symm.trans hboundary')
  obtain rfl := hchecked.id_injective i i' hid
  exact hlive h

/-! ### Paths from dead places -/

/-- **On a path from a dead place**, a statement that touches the atom, and a suggestion to give it
up, come after a statement that makes it anew, or are of one. -/
theorem DeadAt.path (hchecked : Checked cfg values)
    {events : List (Event cfg)} (hpath : Path cfg i done events) (hi : i ∈ reachable cfg)
    (hdead : DeadAt values cfg a i done) :
    ∀ before event after, events = before ++ event :: after →
      event.Holds (Touches values · a) ∨ KillsOn values cfg a event →
        ∃ e ∈ before ++ [event], e.Holds (DefinesFresh values · a) := by
  induction hpath with
  | nil i done => simp
  | @statement i done events hdone _ ih =>
      intro before event after hevents hevent
      have hst := List.getElem?_eq_getElem hdone
      cases before with
      | nil =>
          obtain ⟨rfl, -⟩ := List.cons.inj hevents
          refine ⟨_, List.mem_singleton_self _, _, hst, ?_⟩
          rcases hevent with ⟨statement, hst', htouch⟩ | hkill
          · obtain rfl := Option.some_inj.1 (hst.symm.trans hst')
            exact absurd htouch (hdead.not_touches hst)
          · exact hdead.killsOn_statement hchecked hst hkill
      | cons first before =>
          obtain ⟨rfl, hrest⟩ := List.cons.inj hevents
          rcases hdead.statement hst with hfresh | hdead'
          · exact ⟨_, List.mem_cons_self, _, hst, hfresh⟩
          · obtain ⟨e, he, hfresh⟩ := ih hi hdead' before event after hrest hevent
            exact ⟨e, List.mem_cons_of_mem _ he, hfresh⟩
  | @edge i j events hedge _ ih =>
      intro before event after hevents hevent
      cases before with
      | nil =>
          obtain ⟨rfl, -⟩ := List.cons.inj hevents
          rcases hevent with hfalse | hkill
          · exact hfalse.elim
          · exact absurd hkill (hdead.not_killsOn_edge hchecked)
      | cons first before =>
          obtain ⟨rfl, hrest⟩ := List.cons.inj hevents
          obtain ⟨e, he, hfresh⟩ := ih (successor_mem_reachable hi hedge) (hdead.edge hi hedge)
            before event after hrest hevent
          exact ⟨e, List.mem_cons_of_mem _ he, hfresh⟩

theorem not_escapes (h : a ∉ escapedAtoms cfg values) (hi : i ∈ reachable cfg)
    {statement : LifetimeStatement} (hst : statement ∈ (cfg.block i).statements) {use : ValueUse}
    (huse : use ∈ statement.uses) (hescape : use.causesEscape = true) :
    a ∉ values.atomsOf use.value := by
  intro ha
  refine h (Finset.mem_biUnion.2 ⟨i, hi, Finset.mem_biUnion.2
    ⟨statement, List.mem_toFinset.2 hst, Finset.mem_biUnion.2 ⟨use.value, ?_, ha⟩⟩⟩)
  exact List.mem_toFinset.2 (List.mem_map.2 ⟨use, List.mem_filter.2 ⟨huse, hescape⟩, rfl⟩)

/-- **The suggestions of an analysis without issues are safe.**  On every path from where an atom is
given up, a statement that touches the atom, and a suggestion to give it up again, come after a
statement that makes it anew, or are of one; and the atom escapes nowhere. -/
theorem kills_safe (cfg : LifetimeControlFlowGraph) (values : StableValueTable)
    (hissues : (analyze cfg values).issues = []) (a : AtomId) (i : cfg.Index) (done : ℕ)
    (hkill : KilledAt values cfg a i done) :
    (∀ events, Path cfg i done events → ∀ before event after, events = before ++ event :: after →
        event.Holds (Touches values · a) ∨ KillsOn values cfg a event →
          ∃ e ∈ before ++ [event], e.Holds (DefinesFresh values · a)) ∧
      ∀ j, ReachableBlock cfg j → ∀ statement ∈ (cfg.block j).statements,
        ∀ use ∈ statement.uses, use.causesEscape = true → a ∉ values.atomsOf use.value := by
  have hchecked := checked_of_issues hissues
  obtain ⟨hi, hdead, hescape⟩ := hkill.dead hchecked
  constructor
  · intro events hpath
    exact DeadAt.path hchecked hpath hi hdead
  · intro j hj statement hst use huse hcauses
    exact not_escapes hescape (mem_reachable_of_reachableBlock hj) hst huse hcauses

def loopTable : StableValueTable :=
  (StableValueTable.empty.registerValue { binding := ⟨1⟩, value := ⟨1⟩, atom := ⟨1⟩ }).toOption.getD
    .empty

/-- A loop that defines the value in its first block, uses it in its second, and may leave. -/
def loopGraph : LifetimeControlFlowGraph where
  entry := ⟨1⟩
  blocks :=
    [⟨⟨1⟩, [⟨[⟨1⟩], []⟩], [⟨2⟩, ⟨3⟩]⟩, ⟨⟨2⟩, [⟨[], [{ value := ⟨1⟩ }]⟩], [⟨1⟩]⟩, ⟨⟨3⟩, [], []⟩]

/-- The value of a loop is given up after its use, and made anew in the next turn. -/
theorem kills_safe_loop :
    (analyze loopGraph loopTable).kills =
        [⟨⟨⟨2⟩, 1⟩, ⟨1⟩, [⟨1⟩], .lastUse, true⟩] ∧
      ∀ events, Path loopGraph (1 : Fin 3) 1 events → ∀ before event after,
        events = before ++ event :: after →
          event.Holds (Touches loopTable · ⟨1⟩) ∨ KillsOn loopTable loopGraph ⟨1⟩ event →
            ∃ e ∈ before ++ [event], e.Holds (DefinesFresh loopTable · ⟨1⟩) := by
  have hissues : (analyze loopGraph loopTable).issues = [] := by decide +kernel
  have hkills : (analyze loopGraph loopTable).kills =
      [⟨⟨⟨2⟩, 1⟩, ⟨1⟩, [⟨1⟩], .lastUse, true⟩] := by decide +kernel
  refine ⟨hkills, (kills_safe loopGraph loopTable hissues ⟨1⟩ (1 : Fin 3) 1 ?_).1⟩
  have hmem : (⟨⟨⟨2⟩, 1⟩, ⟨1⟩, [⟨1⟩], .lastUse, true⟩ : KillSuggestion) ∈
      (analyze loopGraph loopTable).kills := hkills ▸ List.mem_singleton_self _
  exact .inl ⟨_, hmem, rfl, rfl⟩

end AtomicProof.Lifetime
