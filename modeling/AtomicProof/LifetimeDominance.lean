/-
Dominance and availability are properties of paths.

The dominators are a greatest fixed point: the iteration starts from all reachable blocks, never drops
one that lies on every path, and ends with sets that hold of every path.  A value is then available
before a statement exactly when no path from the entry reaches the statement before it passes the
definition of the value, as long as a value has one definition.

Main definitions:

* `Lifetime.BlockPath` — the blocks on a path from the entry, the last one first;
* `Lifetime.Arrives` — the statements and edges that a path from the entry passes;
* `Lifetime.Unavailable` — some path reaches a statement before the definition of a value.

Main results:

* `Lifetime.mem_dominators_iff` — **a block is a dominator exactly when it lies on every path**;
* `Lifetime.isAvailableBefore_iff` — a value is available exactly when no path comes too early;
* `Lifetime.availability_exact` — **the issues report exactly the unavailable values**.
-/

import AtomicProof.LifetimePaths

set_option autoImplicit false

namespace AtomicProof.Lifetime

variable {cfg : LifetimeControlFlowGraph} {values : StableValueTable}
variable {i : cfg.Index} {path : List cfg.Index} {events : List (Event cfg)} {d : BasicBlockId}

/-! ### Paths from the entry -/

/-- The blocks on a path from the entry to a block, the last one first. -/
inductive BlockPath (cfg : LifetimeControlFlowGraph) : cfg.Index → List cfg.Index → Prop
  | entry {e : cfg.Index} (he : entryIndex cfg = some e) : BlockPath cfg e [e]
  | step {i j : cfg.Index} {path : List cfg.Index} (hpath : BlockPath cfg i path)
      (hj : j ∈ cfg.successorIndices i) : BlockPath cfg j (j :: path)

/-- What a path from the entry passes before it is at the place after the first `done` statements of a
block. -/
inductive Arrives (cfg : LifetimeControlFlowGraph) : List (Event cfg) → cfg.Index → ℕ → Prop
  | entry {e : cfg.Index} (he : entryIndex cfg = some e) : Arrives cfg [] e 0
  | statement {events : List (Event cfg)} {i : cfg.Index} {done : ℕ} (hpath : Arrives cfg events i done)
      (hdone : done < (cfg.block i).statements.length) :
      Arrives cfg (events ++ [.statement i done]) i (done + 1)
  | edge {events : List (Event cfg)} {i j : cfg.Index}
      (hpath : Arrives cfg events i (cfg.block i).statements.length)
      (hj : j ∈ cfg.successorIndices i) : Arrives cfg (events ++ [.edge i j]) j 0

theorem BlockPath.mem_head (h : BlockPath cfg i path) : ∃ rest, path = i :: rest := by
  cases h with
  | entry he => exact ⟨[], rfl⟩
  | step hpath hj => exact ⟨_, rfl⟩

theorem BlockPath.mem_reachable (h : BlockPath cfg i path) : ∀ k ∈ path, k ∈ reachable cfg := by
  induction h with
  | entry he =>
      intro k hk
      rw [List.mem_singleton.1 hk]
      exact entry_mem_reachable he
  | @step i j path hpath hj ih =>
      intro k hk
      rcases List.mem_cons.1 hk with rfl | hk
      · obtain ⟨rest, rfl⟩ := hpath.mem_head
        exact successor_mem_reachable (ih i List.mem_cons_self) hj
      · exact ih k hk

theorem exists_blockPath (hi : i ∈ reachable cfg) : ∃ path, BlockPath cfg i path := by
  obtain ⟨e, he, hpath⟩ := mem_reachable_iff.1 hi
  induction hpath with
  | refl => exact ⟨[e], .entry he⟩
  | @tail i j _ hj ih =>
      obtain ⟨path, hpath⟩ := ih (mem_reachable_iff.2 ⟨e, he, by assumption⟩)
      exact ⟨j :: path, hpath.step hj⟩

/-- Every block of a path has a path that comes to it once. -/
theorem BlockPath.first (h : BlockPath cfg i path) :
    ∀ k ∈ path, ∃ rest, BlockPath cfg k (k :: rest) ∧ k ∉ rest := by
  induction h with
  | entry he =>
      intro k hk
      obtain rfl := List.mem_singleton.1 hk
      exact ⟨[], .entry he, by simp⟩
  | @step i j path hpath hj ih =>
      intro k hk
      by_cases hmem : k ∈ path
      · exact ih k hmem
      · obtain rfl := (List.mem_cons.1 hk).resolve_right hmem
        exact ⟨path, hpath.step hj, hmem⟩

/-- What a path passes on its way through one more block. -/
theorem Arrives.through (h : Arrives cfg events i 0) :
    ∀ done ≤ (cfg.block i).statements.length, ∃ passed, Arrives cfg (events ++ passed) i done ∧
      ∀ e ∈ passed, ∃ k < done, e = .statement i k := by
  intro done
  induction done with
  | zero => exact fun _ => ⟨[], by rwa [List.append_nil], by simp⟩
  | succ done ih =>
      intro hdone
      obtain ⟨passed, hpath, hpassed⟩ := ih (by omega)
      refine ⟨passed ++ [.statement i done], ?_, fun e he => ?_⟩
      · rw [← List.append_assoc]
        exact hpath.statement (by omega)
      · rcases List.mem_append.1 he with he | he
        · obtain ⟨k, hk, rfl⟩ := hpassed e he
          exact ⟨k, by omega, rfl⟩
        · exact ⟨done, by omega, List.mem_singleton.1 he⟩

/-- A path over blocks passes statements of the blocks before its last one only. -/
theorem BlockPath.arrives (h : BlockPath cfg i path) : ∃ events, Arrives cfg events i 0 ∧
      ∀ j k, Event.statement j k ∈ events → j ∈ path.tail := by
  induction h with
  | entry he => exact ⟨[], .entry he, by simp⟩
  | @step i j path hpath hj ih =>
      obtain ⟨events, harrives, hevents⟩ := ih
      obtain ⟨passed, hthrough, hpassed⟩ := harrives.through _ le_rfl
      refine ⟨_, hthrough.edge hj, fun l k hl => ?_⟩
      rw [List.tail_cons]
      rcases List.mem_append.1 hl with hl | hl
      · rcases List.mem_append.1 hl with hl | hl
        · exact List.mem_of_mem_tail (hevents l k hl)
        · obtain ⟨k', -, heq⟩ := hpassed _ hl
          obtain ⟨rfl, -⟩ := Event.statement.inj heq
          obtain ⟨rest, rfl⟩ := hpath.mem_head
          exact List.mem_cons_self
      · simp at hl

/-- A path passes every statement of the blocks it has left, and those before its place in its last
block. -/
theorem Arrives.blockPath {done : ℕ} (h : Arrives cfg events i done) :
    ∃ rest, BlockPath cfg i (i :: rest) ∧ (∀ k < done, Event.statement i k ∈ events) ∧
      ∀ j ∈ rest, ∀ k < (cfg.block j).statements.length, Event.statement j k ∈ events := by
  induction h with
  | entry he => exact ⟨[], .entry he, by simp, by simp⟩
  | @statement events i done hpath hdone ih =>
      obtain ⟨rest, hblocks, hhere, hrest⟩ := ih
      refine ⟨rest, hblocks, fun k hk => ?_, fun j hj k hk => ?_⟩
      · rcases Nat.lt_succ_iff_lt_or_eq.1 hk with hk | rfl
        · exact List.mem_append_left _ (hhere k hk)
        · exact List.mem_append_right _ (List.mem_singleton_self _)
      · exact List.mem_append_left _ (hrest j hj k hk)
  | @edge events i j hpath hj ih =>
      obtain ⟨rest, hblocks, hhere, hrest⟩ := ih
      refine ⟨i :: rest, hblocks.step hj, by simp, fun l hl k hk => ?_⟩
      rcases List.mem_cons.1 hl with rfl | hl
      · exact List.mem_append_left _ (hhere k hk)
      · exact List.mem_append_left _ (hrest l hl k hk)

theorem Arrives.mem_reachable {done : ℕ} (h : Arrives cfg events i done) : i ∈ reachable cfg := by
  obtain ⟨rest, hblocks, -⟩ := h.blockPath
  exact hblocks.mem_reachable i List.mem_cons_self

/-! ### Dominators -/

/-- A block lies on every path from the entry to another. -/
def Dominates (cfg : LifetimeControlFlowGraph) (d : BasicBlockId) (i : cfg.Index) : Prop :=
  ∀ path, BlockPath cfg i path → ∃ k ∈ path, (cfg.block k).id = d

theorem mem_foldl_inter {α : Type} [DecidableEq α] {x : α} (sets : List (Finset α))
    (start : Finset α) : x ∈ sets.foldl (· ∩ ·) start ↔ x ∈ start ∧ ∀ s ∈ sets, x ∈ s := by
  induction sets generalizing start with
  | nil => simp
  | cons s sets ih =>
      rw [List.foldl_cons, ih, Finset.mem_inter, List.forall_mem_cons, and_assoc]

theorem mem_predecessors {p : cfg.Index} :
    p ∈ predecessors cfg i ↔ p ∈ reachable cfg ∧ i ∈ cfg.successorIndices p := by
  unfold predecessors
  constructor
  · intro h
    obtain ⟨j, hj, hp⟩ := List.mem_flatMap.1 h
    obtain ⟨k, hk, rfl⟩ := List.mem_map.1 hp
    obtain ⟨hmem, hki⟩ := List.mem_filter.1 hk
    rw [decide_eq_true_eq] at hki
    exact ⟨mem_reachableIndices.1 hj, hki ▸ hmem⟩
  · rintro ⟨hp, hi⟩
    refine List.mem_flatMap.2 ⟨p, mem_reachableIndices.2 hp, List.mem_map.2 ⟨i, ?_, rfl⟩⟩
    exact List.mem_filter.2 ⟨hi, decide_eq_true rfl⟩

theorem mem_dominatorsTransfer {s : cfg.Index → Finset BasicBlockId}
    : d ∈ dominatorsTransfer cfg s i ↔
      d = (cfg.block i).id ∨ d ∈ allReachableBlocks cfg ∧ ∀ p ∈ predecessors cfg i, d ∈ s p := by
  unfold dominatorsTransfer
  rw [Finset.mem_insert, mem_foldl_inter, List.forall_mem_map]

theorem id_of_entryIndex {e : cfg.Index} (he : entryIndex cfg = some e) :
    (cfg.block e).id = cfg.entry := by
  have h := List.find?_some he
  rw [Bool.and_eq_true, decide_eq_true_eq] at h
  exact h.2

theorem dominators_entry {e : cfg.Index} (he : entryIndex cfg = some e) :
    dominators cfg e = {cfg.entry} := by
  have hinit : initialDominators cfg e = {cfg.entry} := by
    rw [initialDominators, if_pos (entry_mem_reachable he), if_pos he]
  refine Fixpoint.untilStable_induction
    (fun s : cfg.Index → Finset BasicBlockId => s e = {cfg.entry}) (fun s hs => ?_) _ hinit
  rw [Fixpoint.sweep_of_notMem]
  · exact hs
  · exact fun hmem => (mem_dominatorsOrder.1 hmem).2 he

/-- The sets hold of every path, by induction on the path: they are a fixed point. -/
theorem dominates_of_mem (h : BlockPath cfg i path) :
    ∀ d ∈ dominators cfg i, ∃ k ∈ path, (cfg.block k).id = d := by
  induction h with
  | entry he =>
      intro d hd
      rw [dominators_entry he, Finset.mem_singleton] at hd
      exact ⟨_, List.mem_singleton_self _, by rw [hd, id_of_entryIndex he]⟩
  | @step i j path hpath hj ih =>
      intro d hd
      obtain ⟨rest, rfl⟩ := hpath.mem_head
      have hi := hpath.mem_reachable i List.mem_cons_self
      by_cases hentry : entryIndex cfg = some j
      · rw [dominators_entry hentry, Finset.mem_singleton] at hd
        exact ⟨j, List.mem_cons_self, by rw [hd, id_of_entryIndex hentry]⟩
      · rw [← dominators_stable (successor_mem_reachable hi hj) hentry] at hd
        rcases mem_dominatorsTransfer.1 hd with rfl | ⟨-, hpred⟩
        · exact ⟨j, List.mem_cons_self, rfl⟩
        · obtain ⟨k, hk, hid⟩ := ih d (hpred i (mem_predecessors.2 ⟨hi, hj⟩))
          exact ⟨k, List.mem_cons_of_mem _ hk, hid⟩

/-- The sets still hold every block that lies on all paths. -/
def HoldDominators (cfg : LifetimeControlFlowGraph) (s : cfg.Index → Finset BasicBlockId) : Prop :=
  ∀ i ∈ reachable cfg, ∀ d, Dominates cfg d i → d ∈ s i

theorem Dominates.mem_allReachableBlocks (h : Dominates cfg d i)
    (hi : i ∈ reachable cfg) : d ∈ allReachableBlocks cfg := by
  obtain ⟨path, hpath⟩ := exists_blockPath hi
  obtain ⟨k, hk, rfl⟩ := h path hpath
  exact Finset.mem_image_of_mem _ (hpath.mem_reachable k hk)

theorem holdDominators_initial : HoldDominators cfg (initialDominators cfg) := by
  intro i hi d hd
  rw [initialDominators, if_pos hi]
  split_ifs with hentry
  · obtain ⟨k, hk, rfl⟩ := hd [i] (.entry hentry)
    obtain rfl := List.mem_singleton.1 hk
    rw [id_of_entryIndex hentry]
    exact Finset.mem_singleton_self _
  · exact hd.mem_allReachableBlocks hi

/-- One replacement of the iteration drops no block that lies on all paths. -/
theorem HoldDominators.update {s : cfg.Index → Finset BasicBlockId} (h : HoldDominators cfg s)
    (hi : i ∈ reachable cfg) :
    HoldDominators cfg (Function.update s i (dominatorsTransfer cfg s i)) := by
  intro j hj d hd
  by_cases hji : j = i
  · subst hji
    rw [Function.update_self, mem_dominatorsTransfer]
    by_cases hself : d = (cfg.block j).id
    · exact .inl hself
    · refine .inr ⟨hd.mem_allReachableBlocks hj, fun p hp => ?_⟩
      obtain ⟨hp, hsucc⟩ := mem_predecessors.1 hp
      refine h p hp d fun path hpath => ?_
      obtain ⟨k, hk, hid⟩ := hd (j :: path) (hpath.step hsucc)
      rcases List.mem_cons.1 hk with rfl | hk
      · exact absurd hid.symm hself
      · exact ⟨k, hk, hid⟩
  · rw [Function.update_of_ne hji]
    exact h j hj d hd

/-- **The dominators of a reachable block are the blocks that lie on every path to it.** -/
theorem mem_dominators_iff (hi : i ∈ reachable cfg) : d ∈ dominators cfg i ↔ Dominates cfg d i := by
  constructor
  · exact fun hd path hpath => dominates_of_mem hpath d hd
  · refine fun hd => Fixpoint.untilStable_induction (HoldDominators cfg) (fun s hs => ?_) _
      holdDominators_initial i hi d hd
    exact Fixpoint.sweep_induction (HoldDominators cfg)
      (fun t j hj ht => ht.update (mem_dominatorsOrder.1 hj).1) hs

/-- The rounds of the iteration of dominators. -/
def dominatorsRound (cfg : LifetimeControlFlowGraph) :
    (cfg.Index → Finset BasicBlockId) → cfg.Index → Finset BasicBlockId :=
  Fixpoint.sweep (dominatorsTransfer cfg) (dominatorsOrder cfg)

theorem dominators_ends (cfg : LifetimeControlFlowGraph) :
    ∃ rounds, dominators cfg = (dominatorsRound cfg)^[rounds] (initialDominators cfg) ∧
      dominatorsRound cfg (dominators cfg) = dominators cfg := by
  obtain ⟨rounds, h⟩ := Fixpoint.untilStable_eq_iterate (dominatorsRound cfg)
    (cfg.blocks.length * (reachable cfg).card) (initialDominators cfg)
  refine ⟨rounds, h, Fixpoint.sweep_eq_self fun i hi => ?_⟩
  obtain ⟨hi, hentry⟩ := mem_dominatorsOrder.1 hi
  exact dominators_stable hi hentry

/-! ### Definitions -/

/-- What the checks before the availability find: the structure is sound, no parameter is defined, and
no value is defined twice. -/
structure PassesChecks (cfg : LifetimeControlFlowGraph) (values : StableValueTable) : Prop where
  structure_nil : structureIssues cfg values = []
  location_nil : ∀ v ∈ definedValues cfg, locationIssues cfg v = []

theorem id_injective_of_structureIssues (h : structureIssues cfg values = []) (i j : cfg.Index)
    (hij : (cfg.block i).id = (cfg.block j).id) : i = j := by
  have hids : blockIssues [] cfg.blocks = [] := by
    simp only [structureIssues, List.append_eq_nil_iff] at h
    exact h.1.1.1
  have hinj := List.nodup_iff_injective_get.1 (ids_of_blockIssues [] cfg.blocks hids).2
  have hget : (cfg.blocks.map (·.id)).get (i.cast (by simp)) =
      (cfg.blocks.map (·.id)).get (j.cast (by simp)) := by
    simpa [LifetimeControlFlowGraph.block] using hij
  simpa [Fin.ext_iff] using hinj hget

theorem mem_definitionSites {v : ValueId} {loc : DefinitionLocation} :
    (v, loc) ∈ definitionSites cfg ↔ ∃ i statement, (cfg.block i).id = loc.block ∧
      (cfg.block i).statements[loc.statement]? = some statement ∧ v ∈ statement.definitions := by
  unfold definitionSites
  constructor
  · intro h
    obtain ⟨block, hblock, h⟩ := List.mem_flatMap.1 h
    obtain ⟨⟨statement, k⟩, hst, h⟩ := List.mem_flatMap.1 h
    obtain ⟨w, hw, heq⟩ := List.mem_map.1 h
    obtain ⟨rfl, rfl⟩ := Prod.mk.inj heq
    obtain ⟨i, rfl⟩ := List.get_of_mem hblock
    exact ⟨i, statement, rfl, List.mk_mem_zipIdx_iff_getElem?.1 hst, hw⟩
  · rintro ⟨i, statement, hid, hst, hv⟩
    refine List.mem_flatMap.2 ⟨cfg.block i, List.get_mem _ _, List.mem_flatMap.2 ?_⟩
    refine ⟨(statement, loc.statement), List.mk_mem_zipIdx_iff_getElem?.2 hst, List.mem_map.2 ?_⟩
    exact ⟨v, hv, by rw [hid]⟩

theorem mem_definitions {v : ValueId} {loc : DefinitionLocation} :
    loc ∈ definitions cfg v ↔ ∃ i statement, (cfg.block i).id = loc.block ∧
      (cfg.block i).statements[loc.statement]? = some statement ∧ v ∈ statement.definitions := by
  rw [← mem_definitionSites, definitions]
  constructor
  · intro h
    obtain ⟨⟨w, loc'⟩, hmem, rfl⟩ := List.mem_map.1 h
    obtain ⟨hsite, hw⟩ := List.mem_filter.1 hmem
    rw [decide_eq_true_eq] at hw
    obtain rfl : w = v := hw
    exact hsite
  · intro h
    exact List.mem_map.2 ⟨(v, loc), List.mem_filter.2 ⟨h, decide_eq_true rfl⟩, rfl⟩

/-- A value that passes the checks has no definition or one. -/
theorem PassesChecks.definitions_cases (h : PassesChecks cfg values) (v : ValueId) :
    definitions cfg v = [] ∨ ∃ loc, definitions cfg v = [loc] := by
  cases hdefs : definitions cfg v with
  | nil => exact .inl rfl
  | cons first others =>
      have hmem : v ∈ definedValues cfg := by
        have hfirst : first ∈ definitions cfg v := hdefs ▸ List.mem_cons_self
        obtain ⟨i, statement, hsite⟩ := mem_definitions.1 hfirst
        exact List.mem_toFinset.2
          (List.mem_map.2 ⟨(v, first), mem_definitionSites.2 ⟨i, statement, hsite⟩, rfl⟩)
      have hnil := h.location_nil v hmem
      rw [locationIssues, hdefs] at hnil
      cases others with
      | nil => exact .inr ⟨first, rfl⟩
      | cons second rest =>
          have hcontra := (List.append_eq_nil_iff.1 hnil).2
          exact absurd hcontra (List.cons_ne_nil _ _)

/-! ### Availability -/

/-- A value is no parameter, and some path from the entry reaches a place without passing a definition
of the value first. -/
def Unavailable (cfg : LifetimeControlFlowGraph) (v : ValueId) (i : cfg.Index) (done : ℕ) : Prop :=
  v ∉ cfg.parameters ∧
    ∃ events, Arrives cfg events i done ∧ ∀ e ∈ events, ¬ e.Holds (Defines · v)

section Availability

variable {v : ValueId} {loc : DefinitionLocation} {i : cfg.Index} {done : ℕ}

/-- A path passes the definition of a value where it passes its place, and only there. -/
theorem holds_defines_iff (hinj : ∀ i j : cfg.Index, (cfg.block i).id = (cfg.block j).id → i = j)
    (hloc : definitions cfg v = [loc]) {event : Event cfg} :
    event.Holds (Defines · v) ↔ ∃ j, (cfg.block j).id = loc.block ∧ event = .statement j loc.statement := by
  have hmem : loc ∈ definitions cfg v := hloc ▸ List.mem_singleton_self loc
  constructor
  · cases event with
    | edge _ _ => exact False.elim
    | statement j k =>
        rintro ⟨statement, hst, hdef⟩
        have hsite : (⟨(cfg.block j).id, k⟩ : DefinitionLocation) ∈ definitions cfg v :=
          mem_definitions.2 ⟨j, statement, rfl, hst, hdef⟩
        rw [hloc, List.mem_singleton] at hsite
        exact ⟨j, by rw [← hsite], by rw [← hsite]⟩
  · rintro ⟨j, hid, rfl⟩
    obtain ⟨j', statement, hid', hst, hdef⟩ := mem_definitions.1 hmem
    obtain rfl := hinj j j' (hid.trans hid'.symm)
    exact ⟨statement, hst, hdef⟩

theorem BlockPath.arrives_at {rest : List cfg.Index} (h : BlockPath cfg i (i :: rest))
    (hdone : done ≤ (cfg.block i).statements.length) :
    ∃ events, Arrives cfg events i done ∧
      ∀ j k, Event.statement j k ∈ events → j ∈ rest ∨ j = i ∧ k < done := by
  obtain ⟨events, harrives, hevents⟩ := h.arrives
  obtain ⟨passed, hthrough, hpassed⟩ := harrives.through done hdone
  refine ⟨_, hthrough, fun j k hmem => ?_⟩
  rcases List.mem_append.1 hmem with hmem | hmem
  · exact .inl (hevents j k hmem)
  · obtain ⟨k', hk', heq⟩ := hpassed _ hmem
    obtain ⟨rfl, rfl⟩ := Event.statement.inj heq
    exact .inr ⟨rfl, hk'⟩

/-- A definition in the block of the use is passed first exactly when it stands before it. -/
theorem available_same_block (hinj : ∀ i j : cfg.Index, (cfg.block i).id = (cfg.block j).id → i = j)
    (hi : i ∈ reachable cfg) (hdone : done ≤ (cfg.block i).statements.length)
    (hloc : definitions cfg v = [loc]) (hblock : loc.block = (cfg.block i).id) :
    loc.statement < done ↔
      ∀ events, Arrives cfg events i done → ∃ e ∈ events, e.Holds (Defines · v) := by
  constructor
  · intro hlt events harrives
    obtain ⟨rest, -, hhere, -⟩ := harrives.blockPath
    exact ⟨_, hhere loc.statement hlt, (holds_defines_iff hinj hloc).2 ⟨i, hblock.symm, rfl⟩⟩
  · intro hall
    -- on the way to its first visit, the block has not been passed before
    obtain ⟨path, hpath⟩ := exists_blockPath hi
    obtain ⟨before, rfl⟩ := hpath.mem_head
    obtain ⟨rest, hfirst, hnot⟩ := hpath.first i List.mem_cons_self
    obtain ⟨events, harrives, hevents⟩ := hfirst.arrives_at hdone
    obtain ⟨e, he, hdef⟩ := hall events harrives
    obtain ⟨j, hid, rfl⟩ := (holds_defines_iff hinj hloc).1 hdef
    obtain rfl := hinj j i (hid.trans hblock)
    rcases hevents _ _ he with hmem | ⟨-, hlt⟩
    · exact absurd hmem hnot
    · exact hlt

/-- A definition in another block is passed first exactly when its block is a dominator. -/
theorem available_other_block (hinj : ∀ i j : cfg.Index, (cfg.block i).id = (cfg.block j).id → i = j)
    (hi : i ∈ reachable cfg) (hdone : done ≤ (cfg.block i).statements.length)
    (hloc : definitions cfg v = [loc]) (hblock : loc.block ≠ (cfg.block i).id) :
    loc.block ∈ dominators cfg i ↔
      ∀ events, Arrives cfg events i done → ∃ e ∈ events, e.Holds (Defines · v) := by
  have hmem : loc ∈ definitions cfg v := hloc ▸ List.mem_singleton_self loc
  obtain ⟨d, statement, hid, hst, -⟩ := mem_definitions.1 hmem
  obtain ⟨hlt, -⟩ := List.getElem?_eq_some_iff.1 hst
  rw [mem_dominators_iff hi]
  constructor
  · intro hdom events harrives
    obtain ⟨rest, hpath, -, hrest⟩ := harrives.blockPath
    obtain ⟨j, hj, hjd⟩ := hdom _ hpath
    obtain rfl := hinj j d (hjd.trans hid.symm)
    rcases List.mem_cons.1 hj with rfl | hj
    · exact absurd hid.symm hblock
    · exact ⟨_, hrest j hj _ hlt, (holds_defines_iff hinj hloc).2 ⟨j, hid, rfl⟩⟩
  · intro hall path hpath
    obtain ⟨rest, rfl⟩ := hpath.mem_head
    obtain ⟨events, harrives, hevents⟩ := hpath.arrives_at hdone
    obtain ⟨e, he, hdef⟩ := hall events harrives
    obtain ⟨j, hjd, rfl⟩ := (holds_defines_iff hinj hloc).1 hdef
    rcases hevents _ _ he with hmem | ⟨rfl, -⟩
    · exact ⟨j, List.mem_cons_of_mem _ hmem, hjd⟩
    · exact absurd hjd.symm hblock

/-- **A value is available before a statement exactly when no path comes there too early.** -/
theorem isAvailableBefore_iff (hchecks : PassesChecks cfg values) (hi : i ∈ reachable cfg)
    (hdone : done ≤ (cfg.block i).statements.length) :
    isAvailableBefore cfg v i done = false ↔ Unavailable cfg v i done := by
  have hinj := id_injective_of_structureIssues hchecks.structure_nil
  have hparameters : v ∈ parameters cfg ↔ v ∈ cfg.parameters := List.mem_toFinset
  unfold isAvailableBefore Unavailable
  by_cases hv : v ∈ cfg.parameters
  · rw [if_pos (hparameters.2 hv)]
    simp [hv]
  · rw [if_neg (mt hparameters.1 hv)]
    have hnegate : (∃ events, Arrives cfg events i done ∧ ∀ e ∈ events, ¬ e.Holds (Defines · v)) ↔
        ¬ ∀ events, Arrives cfg events i done → ∃ e ∈ events, e.Holds (Defines · v) := by
      push Not
      rfl
    rw [hnegate]
    simp only [hv, not_false_iff, true_and]
    rcases hchecks.definitions_cases v with hnone | ⟨loc, hloc⟩
    -- without a definition, any path will do
    · obtain ⟨path, hpath⟩ := exists_blockPath hi
      obtain ⟨rest, rfl⟩ := hpath.mem_head
      obtain ⟨events, harrives, -⟩ := hpath.arrives_at hdone
      rw [hnone]
      refine iff_of_true rfl fun hall => ?_
      obtain ⟨e, -, hdef⟩ := hall events harrives
      cases e with
      | edge _ _ => exact hdef
      | statement j k =>
          obtain ⟨statement, hst, hdef⟩ := hdef
          have hsite : (⟨(cfg.block j).id, k⟩ : DefinitionLocation) ∈ definitions cfg v :=
            mem_definitions.2 ⟨j, statement, rfl, hst, hdef⟩
          rw [hnone] at hsite
          exact absurd hsite List.not_mem_nil
    · rw [hloc]
      by_cases hblock : loc.block = (cfg.block i).id
      · simp only [if_pos hblock, decide_eq_false_iff_not]
        exact not_congr (available_same_block hinj hi hdone hloc hblock)
      · simp only [if_neg hblock, decide_eq_false_iff_not]
        exact not_congr (available_other_block hinj hi hdone hloc hblock)

end Availability

/-! ### What the analysis reports -/

def useIssue (i : cfg.Index) (k : ℕ) (v : ValueId) : LifetimeIssue :=
  ⟨.useBeforeDefinition, (cfg.block i).id, k, some v, "value use is not dominated by its definition"⟩

/-- The issue of an unavailable relation source. -/
def sourceIssue (i : cfg.Index) (k : ℕ) (v : ValueId) : LifetimeIssue :=
  ⟨.aliasSourceUnavailable, (cfg.block i).id, k, some v,
    "atom relation source is not available at its definition"⟩

theorem mem_statementAvailabilityIssues {k : ℕ} {statement : LifetimeStatement}
    {issue : LifetimeIssue} :
    issue ∈ statementAvailabilityIssues cfg values i k statement ↔
      (∃ use ∈ statement.uses, isAvailableBefore cfg use.value i k = false ∧
        issue = useIssue i k use.value) ∨
      ∃ d ∈ statement.definitions, ∃ s ∈ values.relationSources d, s ∉ statement.definitions ∧
        isAvailableBefore cfg s i k = false ∧ issue = sourceIssue i k s := by
  unfold statementAvailabilityIssues
  rw [List.mem_append, List.mem_map, List.mem_flatMap]
  refine or_congr ?_ (exists_congr fun d => and_congr_right fun hd => ?_)
  · constructor
    · rintro ⟨use, huse, rfl⟩
      obtain ⟨huse, havailable⟩ := List.mem_filter.1 huse
      exact ⟨use, huse, by simpa using havailable, rfl⟩
    · rintro ⟨use, huse, havailable, rfl⟩
      exact ⟨use, List.mem_filter.2 ⟨huse, by simp [havailable]⟩, rfl⟩
  · rw [List.mem_map]
    constructor
    · rintro ⟨s, hs, rfl⟩
      obtain ⟨hs, hcond⟩ := List.mem_filter.1 hs
      rw [decide_eq_true_eq, mem_defined] at hcond
      exact ⟨s, mem_inOrder.1 hs, hcond.1, by simpa using hcond.2, rfl⟩
    · rintro ⟨s, hs, hout, havailable, rfl⟩
      refine ⟨s, List.mem_filter.2 ⟨mem_inOrder.2 hs, ?_⟩, rfl⟩
      rw [decide_eq_true_eq, mem_defined]
      exact ⟨hout, by simp [havailable]⟩

/-- A use, or a source that its statement does not define itself, is reported exactly when it is
unavailable. -/
def ReportedExactly (cfg : LifetimeControlFlowGraph) (values : StableValueTable)
    (issue : LifetimeIssue) : Prop :=
  ∃ i k statement, ReachableBlock cfg i ∧ (cfg.block i).statements[k]? = some statement ∧
    ((∃ use ∈ statement.uses, Unavailable cfg use.value i k ∧ issue = useIssue i k use.value) ∨
      ∃ d ∈ statement.definitions, ∃ s ∈ values.relationSources d, s ∉ statement.definitions ∧
        Unavailable cfg s i k ∧ issue = sourceIssue i k s)

theorem mem_availabilityIssues (hchecks : PassesChecks cfg values) {issue : LifetimeIssue} :
    issue ∈ availabilityIssues cfg values ↔ ReportedExactly cfg values issue := by
  have hexact : ∀ i k statement, i ∈ reachable cfg → (cfg.block i).statements[k]? = some statement →
      ∀ v, isAvailableBefore cfg v i k = false ↔ Unavailable cfg v i k := by
    intro i k statement hi hst v
    obtain ⟨hlt, -⟩ := List.getElem?_eq_some_iff.1 hst
    exact isAvailableBefore_iff hchecks hi hlt.le
  unfold availabilityIssues ReportedExactly
  constructor
  · intro h
    obtain ⟨i, hi, h⟩ := List.mem_flatMap.1 h
    obtain ⟨⟨statement, k⟩, hst, h⟩ := List.mem_flatMap.1 h
    rw [mem_reachableIndices] at hi
    rw [List.mk_mem_zipIdx_iff_getElem?] at hst
    rw [mem_statementAvailabilityIssues] at h
    simp only [hexact i k statement hi hst] at h
    exact ⟨i, k, statement, mem_reachable_iff.1 hi, hst, h⟩
  · rintro ⟨i, k, statement, hi, hst, h⟩
    rw [← mem_reachable_iff] at hi
    refine List.mem_flatMap.2 ⟨i, mem_reachableIndices.2 hi, List.mem_flatMap.2 ?_⟩
    refine ⟨(statement, k), List.mk_mem_zipIdx_iff_getElem?.2 hst, ?_⟩
    rw [mem_statementAvailabilityIssues]
    simpa only [hexact i k statement hi hst] using h

/-- **Dominance and availability are exact.**  The iteration of the dominators ends, with the blocks
that lie on every path from the entry; and the issues report exactly the uses, and the relation sources
that their statement does not define itself, whose value is no parameter and which some path from the
entry reaches without passing a definition of the value first. -/
theorem availability_exact (cfg : LifetimeControlFlowGraph) (values : StableValueTable)
    (hchecks : PassesChecks cfg values) :
    (∃ rounds, dominators cfg = (dominatorsRound cfg)^[rounds] (initialDominators cfg) ∧
      dominatorsRound cfg (dominators cfg) = dominators cfg) ∧
    (∀ i, ReachableBlock cfg i → ∀ d, d ∈ dominators cfg i ↔ Dominates cfg d i) ∧
    (∀ issue, issue ∈ availabilityIssues cfg values ↔ ReportedExactly cfg values issue) ∧
    (definitionIssues cfg values = [] → availabilityIssues cfg values ≠ [] →
      (analyze cfg values).issues = availabilityIssues cfg values) := by
  refine ⟨dominators_ends cfg, fun i hi d => mem_dominators_iff (mem_reachable_iff.2 hi),
    fun issue => mem_availabilityIssues hchecks, fun hdefinition havailable => ?_⟩
  rw [analyze, if_neg (not_not.2 hchecks.structure_nil), if_neg (not_not.2 hdefinition),
    if_pos havailable]

/-- A graph that uses its value in the statement before the one that defines it. -/
def earlyGraph : LifetimeControlFlowGraph where
  entry := ⟨1⟩
  blocks := [⟨⟨1⟩, [⟨[], [{ value := ⟨1⟩ }]⟩, ⟨[⟨1⟩], []⟩], []⟩]

/-- The early use is reported, and no path is to blame but the one to it. -/
theorem availability_exact_early :
    ∃ i : earlyGraph.Index, ReportedExactly earlyGraph loopTable (useIssue i 0 ⟨1⟩) :=
  ⟨⟨0, by decide⟩, ((availability_exact earlyGraph loopTable
    ⟨by decide +kernel, by decide +kernel⟩).2.2.1 _).1 (by decide +kernel)⟩

def aliasTable : StableValueTable :=
  (loopTable.registerAlias ⟨1⟩ ⟨2⟩ ⟨1⟩).toOption.getD .empty

/-- A graph whose one statement defines a value and its alias. -/
def aliasGraph : LifetimeControlFlowGraph where
  entry := ⟨1⟩
  blocks := [⟨⟨1⟩, [⟨[⟨1⟩, ⟨2⟩], []⟩], []⟩]

/-- The source of an alias that is defined by the same statement is not there when a path reaches the
statement, and this is not reported. -/
theorem co_defined_source :
    PassesChecks aliasGraph aliasTable ∧ (analyze aliasGraph aliasTable).issues = [] ∧
      ∃ i : aliasGraph.Index, ReachableBlock aliasGraph i ∧
        (aliasGraph.block i).statements[0]? = some ⟨[⟨1⟩, ⟨2⟩], []⟩ ∧
        (⟨1⟩ : ValueId) ∈ aliasTable.relationSources ⟨2⟩ ∧ Unavailable aliasGraph ⟨1⟩ i 0 := by
  have hreachable : (⟨0, by decide⟩ : aliasGraph.Index) ∈ reachable aliasGraph := by decide +kernel
  refine ⟨⟨by decide +kernel, by decide +kernel⟩, by decide +kernel, ⟨0, by decide⟩,
    mem_reachable_iff.1 hreachable, rfl, by decide +kernel, by decide, [], .entry (by decide +kernel), ?_⟩
  simp

end AtomicProof.Lifetime
