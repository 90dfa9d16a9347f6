/-
The loops of the lifetime analysis reach what they look for.

The number of turns and rounds that `Lifetime.visit`, `Lifetime.liveness`, `Lifetime.dominators` and
`Lifetime.reaching` are given is always enough: the traversal ends with nothing pending, and the
three iterations end in fixed points, because their transfer functions are monotone and the sets
they change stay inside finite ones.

Main results:

* `Lifetime.successor_mem_reachable`, `Lifetime.entry_mem_reachable` — the traversal marks the
  entry and, with a block, its successors;
* `Lifetime.liveness_stable` — **liveness is a fixed point** at every reachable block;
* `Lifetime.dominators_stable`, `Lifetime.reaching_stable` — so are the other two.
-/

import AtomicProof.Lifetime

set_option autoImplicit false

namespace AtomicProof.Lifetime

variable {cfg : LifetimeControlFlowGraph} {values : StableValueTable}
variable {i : cfg.Index} {statement : LifetimeStatement} {α : Type}

/-! ### The traversal -/

/-- With enough turns, the loop marks all that was pending and the successors of all it marks. -/
theorem visit_closed : ∀ (fuel : ℕ) (marked : Finset cfg.Index) (pending : List cfg.Index),
    pending.length + ∑ i ∈ markedᶜ, (cfg.successorIndices i).length ≤ fuel →
    (∀ i ∈ marked, ∀ j ∈ cfg.successorIndices i, j ∈ marked ∨ j ∈ pending) →
      marked ⊆ visit cfg fuel marked pending ∧ (∀ i ∈ pending, i ∈ visit cfg fuel marked pending) ∧
        ∀ i ∈ visit cfg fuel marked pending, ∀ j ∈ cfg.successorIndices i,
          j ∈ visit cfg fuel marked pending
  | 0, marked, pending, hfuel, hclosed => by
      have hnil : pending = [] := List.length_eq_zero_iff.1 (by omega)
      subst hnil
      exact ⟨Finset.Subset.refl _, by simp, fun i hi j hj => (hclosed i hi j hj).resolve_right (by simp)⟩
  | fuel + 1, marked, [], hfuel, hclosed =>
      ⟨Finset.Subset.refl _, by simp, fun i hi j hj => (hclosed i hi j hj).resolve_right (by simp)⟩
  | fuel + 1, marked, i :: pending, hfuel, hclosed => by
      rw [List.length_cons] at hfuel
      rw [visit]
      by_cases hi : i ∈ marked
      · rw [if_pos hi]
        obtain ⟨hsub, hpending, hsucc⟩ := visit_closed fuel marked pending (by omega) (by
          intro j hj k hk
          rcases hclosed j hj k hk with h | h
          · exact .inl h
          · rcases List.mem_cons.1 h with rfl | h
            · exact .inl hi
            · exact .inr h)
        refine ⟨hsub, fun j hj => ?_, hsucc⟩
        rcases List.mem_cons.1 hj with rfl | hj
        · exact hsub hi
        · exact hpending j hj
      · rw [if_neg hi]
        -- the successors of `i` move from the sum into `pending`
        have hsum : ∑ j ∈ (insert i marked)ᶜ, (cfg.successorIndices j).length +
            (cfg.successorIndices i).length = ∑ j ∈ markedᶜ, (cfg.successorIndices j).length := by
          rw [Finset.compl_insert]
          exact Finset.sum_erase_add _ _ (Finset.mem_compl.2 hi)
        obtain ⟨hsub, hpending, hsucc⟩ := visit_closed fuel (insert i marked)
          (pending ++ cfg.successorIndices i) (by rw [List.length_append]; omega) (by
            intro j hj k hk
            rw [Finset.mem_insert, List.mem_append]
            rcases Finset.mem_insert.1 hj with rfl | hj
            · exact .inr (.inr hk)
            · rcases hclosed j hj k hk with h | h
              · exact .inl (.inr h)
              · rcases List.mem_cons.1 h with rfl | h
                · exact .inl (.inl rfl)
                · exact .inr (.inl h))
        refine ⟨fun j hj => hsub (Finset.mem_insert_of_mem hj), fun j hj => ?_, hsucc⟩
        rcases List.mem_cons.1 hj with rfl | hj
        · exact hsub (Finset.mem_insert_self _ _)
        · exact hpending j (List.mem_append_left _ hj)

theorem reachable_closed (cfg : LifetimeControlFlowGraph) :
    (∀ i, entryIndex cfg = some i → i ∈ reachable cfg) ∧
      ∀ i ∈ reachable cfg, ∀ j ∈ cfg.successorIndices i, j ∈ reachable cfg := by
  have hlength : (entryIndex cfg).toList.length ≤ 1 := by
    cases entryIndex cfg <;> simp
  obtain ⟨-, hpending, hsucc⟩ := visit_closed
    (∑ i, (cfg.successorIndices i).length + 1) ∅ (entryIndex cfg).toList
    (by rw [Finset.compl_empty]; omega) (by simp)
  refine ⟨fun i hi => hpending i ?_, hsucc⟩
  rw [hi]
  exact List.mem_singleton_self i

theorem entry_mem_reachable (h : entryIndex cfg = some i) : i ∈ reachable cfg :=
  (reachable_closed cfg).1 i h

/-- **The successors of a reachable block are reachable.** -/
theorem successor_mem_reachable {j : cfg.Index} (hi : i ∈ reachable cfg)
    (hj : j ∈ cfg.successorIndices i) : j ∈ reachable cfg :=
  (reachable_closed cfg).2 i hi j hj

@[simp] theorem mem_reachableIndices : i ∈ reachableIndices cfg ↔ i ∈ reachable cfg := by
  simp [reachableIndices]

theorem nodup_reachableIndices (cfg : LifetimeControlFlowGraph) : (reachableIndices cfg).Nodup :=
  (List.nodup_finRange _).filter _

/-! ### Pairs of finite sets -/

section Pairs

variable {α : Type}

theorem card_lt_of_lt {x y : Finset α × Finset α} (h : x < y) :
    x.1.card + x.2.card < y.1.card + y.2.card := by
  rcases Prod.lt_iff.1 h with ⟨h₁, h₂⟩ | ⟨h₁, h₂⟩
  · have := Finset.card_lt_card h₁
    have := Finset.card_le_card h₂
    omega
  · have := Finset.card_le_card h₁
    have := Finset.card_lt_card h₂
    omega

/-- What two sets inside `everything` leave out of it. -/
def room (everything : Finset α) (x : Finset α × Finset α) : ℕ :=
  2 * everything.card - (x.1.card + x.2.card)

theorem room_lt_of_lt {everything : Finset α} {x y : Finset α × Finset α} (h : x < y)
    (hy : y ≤ (everything, everything)) : room everything y < room everything x := by
  have hlt := card_lt_of_lt h
  have h₁ := Finset.card_le_card hy.1
  have h₂ := Finset.card_le_card hy.2
  simp only at h₁ h₂
  unfold room
  omega

end Pairs

/-! ### Liveness -/

theorem transferLivenessStatement_mono (statement : LifetimeStatement) :
    Monotone (transferLivenessStatement values statement) := by
  intro s t hst
  unfold transferLivenessStatement
  gcongr

theorem transferLivenessBlock_mono (sts : List LifetimeStatement) :
    Monotone (transferLivenessBlock values sts) := by
  intro s t hst
  induction sts with
  | nil => exact hst
  | cons statement rest ih => exact transferLivenessStatement_mono statement ih

theorem livenessTransfer_mono : Monotone (livenessTransfer cfg values) := by
  intro s t hst i
  have hout : ((cfg.successorIndices i).toFinset.biUnion fun successor => (s successor).1) ⊆
      (cfg.successorIndices i).toFinset.biUnion fun successor => (t successor).1 :=
    Finset.biUnion_mono fun successor _ => (hst successor).1
  exact ⟨transferLivenessBlock_mono _ hout, hout⟩

theorem mem_statements (h : statement ∈ (cfg.block i).statements) : statement ∈ statements cfg :=
  List.mem_flatMap.2 ⟨cfg.block i, List.get_mem _ _, h⟩

theorem reads_subset_referencedValues (values : StableValueTable) (h : statement ∈ statements cfg) :
    statement.outerSources values ⊆ referencedValues cfg values ∧
      statement.used ⊆ referencedValues cfg values := by
  constructor
  · intro v hv
    refine Finset.mem_union_left _ (Finset.mem_biUnion.2 ⟨statement, List.mem_toFinset.2 h, ?_⟩)
    exact (Finset.mem_sdiff.1 hv).1
  · intro v hv
    exact Finset.mem_union_right _ (Finset.mem_biUnion.2 ⟨statement, List.mem_toFinset.2 h, hv⟩)

theorem transferLivenessBlock_subset {sts : List LifetimeStatement}
    (hsts : ∀ statement ∈ sts, statement ∈ statements cfg) {live : LiveValueSet}
    (hlive : live ⊆ referencedValues cfg values) :
    transferLivenessBlock values sts live ⊆ referencedValues cfg values := by
  induction sts with
  | nil => exact hlive
  | cons statement rest ih =>
      have hrest := ih fun st hst => hsts st (List.mem_cons_of_mem _ hst)
      obtain ⟨hsources, hused⟩ := reads_subset_referencedValues values
        (hsts statement List.mem_cons_self)
      refine Finset.union_subset (Finset.union_subset ?_ hsources) hused
      exact Finset.sdiff_subset.trans hrest

theorem livenessTransfer_le {live : cfg.Index → LiveValueSet × LiveValueSet}
    (h : ∀ i, live i ≤ (referencedValues cfg values, referencedValues cfg values))
    (i : cfg.Index) :
    livenessTransfer cfg values live i ≤
      (referencedValues cfg values, referencedValues cfg values) := by
  have hout : ((cfg.successorIndices i).toFinset.biUnion fun successor => (live successor).1) ⊆
      referencedValues cfg values :=
    Finset.biUnion_subset.2 fun successor _ => (h successor).1
  exact ⟨transferLivenessBlock_subset (fun _ hst => mem_statements hst) hout, hout⟩

/-- **Liveness is a fixed point at every reachable block.** -/
theorem liveness_stable (values : StableValueTable) (hi : i ∈ reachable cfg) :
    livenessTransfer cfg values (liveness cfg values) i = liveness cfg values i := by
  refine Fixpoint.untilStable_sweep livenessTransfer_mono
    (List.nodup_reverse.2 (nodup_reachableIndices cfg)) (fun _ => livenessTransfer_le)
    (fun _ _ => room_lt_of_lt) (fun _ _ => ?_) (fun _ => ?_) ?_ i ?_
  · exact ⟨Finset.empty_subset _, Finset.empty_subset _⟩
  · exact ⟨Finset.empty_subset _, Finset.empty_subset _⟩
  · simp [room]
  · rw [List.mem_reverse]
    exact mem_reachableIndices.2 hi

/-! ### Dominators -/

theorem foldl_inter_mono [DecidableEq α] {sets sets' : List (Finset α)}
    (h : List.Forall₂ (· ⊆ ·) sets sets') {start start' : Finset α} (hstart : start ⊆ start') :
    sets.foldl (· ∩ ·) start ⊆ sets'.foldl (· ∩ ·) start' := by
  induction h generalizing start start' with
  | nil => exact hstart
  | cons hst _ ih => exact ih (Finset.inter_subset_inter hstart hst)

theorem forall₂_map {β : Type} {r : β → β → Prop} {f g : α → β} (xs : List α)
    (h : ∀ x ∈ xs, r (f x) (g x)) : List.Forall₂ r (xs.map f) (xs.map g) := by
  induction xs with
  | nil => exact .nil
  | cons x xs ih =>
      exact .cons (h x List.mem_cons_self) (ih fun y hy => h y (List.mem_cons_of_mem _ hy))

theorem foldl_inter_subset [DecidableEq α] (sets : List (Finset α))
    (start : Finset α) : sets.foldl (· ∩ ·) start ⊆ start := by
  induction sets generalizing start with
  | nil => exact Finset.Subset.refl _
  | cons s sets ih => exact (ih (start ∩ s)).trans Finset.inter_subset_left

theorem dominatorsTransfer_mono : Monotone (dominatorsTransfer cfg) := by
  intro s t hst i
  refine Finset.insert_subset_insert _ (foldl_inter_mono (forall₂_map _ fun p _ => ?_) ?_)
  · exact hst p
  · exact Finset.Subset.refl _

theorem dominatorsTransfer_subset (hi : i ∈ reachable cfg)
    (dominators : cfg.Index → Finset BasicBlockId) :
    dominatorsTransfer cfg dominators i ⊆ allReachableBlocks cfg :=
  Finset.insert_subset (Finset.mem_image_of_mem _ hi) (foldl_inter_subset _ _)

theorem mem_dominatorsOrder :
    i ∈ dominatorsOrder cfg ↔ i ∈ reachable cfg ∧ entryIndex cfg ≠ some i := by
  simp [dominatorsOrder]

theorem card_initialDominators (cfg : LifetimeControlFlowGraph) (i : cfg.Index) :
    (initialDominators cfg i).card ≤ (reachable cfg).card := by
  unfold initialDominators
  split_ifs with hi hentry
  · rw [Finset.card_singleton]
    exact Finset.card_pos.2 ⟨i, hi⟩
  · exact Finset.card_image_le
  · exact Nat.zero_le _

/-- **Dominators are a fixed point** at every reachable block but the entry. -/
theorem dominators_stable (hi : i ∈ reachable cfg) (hentry : entryIndex cfg ≠ some i) :
    dominatorsTransfer cfg (dominators cfg) i = dominators cfg i := by
  refine Fixpoint.untilStable_sweep_of_descending dominatorsTransfer_mono
    ((nodup_reachableIndices cfg).filter _) (fun _ _ => Finset.card_lt_card) (fun j hj => ?_) ?_ i
    (mem_dominatorsOrder.2 ⟨hi, hentry⟩)
  · obtain ⟨hj, hne⟩ := mem_dominatorsOrder.1 hj
    show dominatorsTransfer cfg (initialDominators cfg) j ⊆ initialDominators cfg j
    rw [initialDominators, if_pos hj, if_neg hne]
    exact dominatorsTransfer_subset hj _
  · calc ∑ j, (initialDominators cfg j).card
        ≤ ∑ _j : cfg.Index, (reachable cfg).card :=
          Finset.sum_le_sum fun j _ => card_initialDominators cfg j
      _ = cfg.blocks.length * (reachable cfg).card := by simp

/-! ### Reaching values -/

theorem transferReachingStatement_mono (statement : LifetimeStatement) :
    Monotone fun s => transferReachingStatement values s statement := by
  intro s t hst
  exact Finset.union_subset_union (Finset.filter_subset_filter _ hst) (Finset.Subset.refl _)

theorem transferReachingBlock_mono (sts : List LifetimeStatement) :
    Monotone (transferReachingBlock values sts) := by
  intro s t hst
  induction sts generalizing s t with
  | nil => exact hst
  | cons statement rest ih => exact ih (transferReachingStatement_mono statement hst)

theorem intersectPredecessors_mono {sets sets' : List LiveValueSet}
    (h : List.Forall₂ (· ⊆ ·) sets sets') (everything : LiveValueSet) :
    intersectPredecessors sets everything ⊆ intersectPredecessors sets' everything := by
  unfold intersectPredecessors
  cases h with
  | nil => exact Finset.Subset.refl _
  | cons hst hrest => exact foldl_inter_mono (.cons hst hrest) (Finset.Subset.refl _)

theorem intersectPredecessors_subset (sets : List LiveValueSet) (everything : LiveValueSet) :
    intersectPredecessors sets everything ⊆ everything := by
  unfold intersectPredecessors
  split_ifs
  · exact Finset.empty_subset _
  · exact foldl_inter_subset _ _

theorem reachingTransfer_mono : Monotone (reachingTransfer cfg values) := by
  intro s t hst i
  have hin : (reachingTransfer cfg values s i).1 ⊆ (reachingTransfer cfg values t i).1 := by
    unfold reachingTransfer
    split_ifs
    · exact Finset.Subset.refl _
    · exact intersectPredecessors_mono (forall₂_map _ fun p _ => (hst p).2) _
  exact ⟨hin, transferReachingBlock_mono _ hin⟩

theorem defined_subset_reachingUniverse
    (h : statement ∈ (cfg.block i).statements) : statement.defined ⊆ reachingUniverse cfg := by
  intro v hv
  refine Finset.mem_union_right _ (List.mem_toFinset.2 (List.mem_map.2 ?_))
  obtain ⟨k, hk, hget⟩ := List.mem_iff_getElem.1 h
  refine ⟨(v, ⟨(cfg.block i).id, k⟩), List.mem_flatMap.2 ⟨cfg.block i, List.get_mem _ _, ?_⟩, rfl⟩
  refine List.mem_flatMap.2 ⟨(statement, k), ?_, ?_⟩
  · rw [List.mk_mem_zipIdx_iff_getElem?, List.getElem?_eq_getElem hk, hget]
  · exact List.mem_map.2 ⟨v, List.mem_toFinset.1 hv, rfl⟩

theorem transferReachingBlock_subset {sts : List LifetimeStatement}
    (hsts : ∀ statement ∈ sts, statement.defined ⊆ reachingUniverse cfg) {s : LiveValueSet}
    (hs : s ⊆ reachingUniverse cfg) :
    transferReachingBlock values sts s ⊆ reachingUniverse cfg := by
  induction sts generalizing s with
  | nil => exact hs
  | cons statement rest ih =>
      refine ih (fun st hst => hsts st (List.mem_cons_of_mem _ hst)) ?_
      exact Finset.union_subset ((Finset.filter_subset _ _).trans hs)
        (hsts statement List.mem_cons_self)

theorem initialReaching_subset (values : StableValueTable) (i : cfg.Index) :
    (initialReaching cfg values i).1 ⊆ reachingUniverse cfg ∧
      (initialReaching cfg values i).2 ⊆ reachingUniverse cfg := by
  unfold initialReaching
  split_ifs with hi hentry
  · exact ⟨Finset.subset_union_left, transferReachingBlock_subset
      (fun _ => defined_subset_reachingUniverse) Finset.subset_union_left⟩
  · exact ⟨Finset.Subset.refl _, transferReachingBlock_subset
      (fun _ => defined_subset_reachingUniverse) (Finset.Subset.refl _)⟩
  · exact ⟨Finset.empty_subset _, Finset.empty_subset _⟩

/-- **Reaching values are a fixed point** at every reachable block. -/
theorem reaching_stable (hi : i ∈ reachable cfg) :
    reachingTransfer cfg values (reaching cfg values) i = reaching cfg values i := by
  refine Fixpoint.untilStable_sweep_of_descending reachingTransfer_mono
    (nodup_reachableIndices cfg) (fun _ _ => card_lt_of_lt) (fun j hj => ?_) ?_ i
    (mem_reachableIndices.2 hi)
  · have hj' := mem_reachableIndices.1 hj
    have hin : (reachingTransfer cfg values (initialReaching cfg values) j).1 ⊆
        (initialReaching cfg values j).1 := by
      rw [initialReaching, if_pos hj', reachingTransfer]
      split_ifs
      · exact Finset.Subset.refl _
      · exact intersectPredecessors_subset _ _
    have hout : (initialReaching cfg values j).2 =
        transferReachingBlock values (cfg.block j).statements (initialReaching cfg values j).1 := by
      rw [initialReaching, if_pos hj']
    refine ⟨hin, ?_⟩
    show (reachingTransfer cfg values (initialReaching cfg values) j).2 ⊆
      (initialReaching cfg values j).2
    rw [hout]
    exact transferReachingBlock_mono _ hin
  · calc ∑ j, ((initialReaching cfg values j).1.card + (initialReaching cfg values j).2.card)
        ≤ ∑ _j : cfg.Index, 2 * (reachingUniverse cfg).card := by
          refine Finset.sum_le_sum fun j _ => ?_
          obtain ⟨h₁, h₂⟩ := initialReaching_subset values j
          have := Finset.card_le_card h₁
          have := Finset.card_le_card h₂
          omega
      _ = cfg.blocks.length * (2 * (reachingUniverse cfg).card) := by simp

end AtomicProof.Lifetime
