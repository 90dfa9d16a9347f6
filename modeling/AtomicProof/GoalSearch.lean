/-
Shortest paths to a goal, below a limit.

A search that only looks for a goal stops as soon as a goal is the cheapest node of the queue, and
a search that knows what a solution may cost at most leaves out what costs more.  Neither changes
what is found: the goal that is found is a cheapest one, and where none is found no path to a goal
stays within the limit.

Main definitions:

* `Relaxation.Problem.find` — the search;
* `Relaxation.Problem.WithinPath` — a path whose costs are within the limit.

Main results:

* `Relaxation.Problem.find_chained` — what the search knows is chained, so that the edges back from
  the goal are a path from the root;
* `Relaxation.Problem.find_spec` — **the goal that is found is the cheapest, and it is found if there
  is a path to a goal within the limit**.
-/

import AtomicProof.Relaxation

set_option autoImplicit false

namespace Relaxation

variable {ι κ σ : Type}

namespace Problem

/-! ### The search -/

section Search

variable [LinearOrder ι] [LinearOrder κ] (P : Problem ι κ σ) (within : κ → Bool) (isGoal : ι → Bool)

/-- The edges from a node that stay within the limit. -/
def edgesWithin (item : κ × ι) : List (σ × ι) :=
  (P.edges item.2).filter fun edge => within (P.extend item.1 edge.1)

theorem foldl_edgesWithin_costs (item : κ × ι) (s : State ι κ σ) :
    (P.edgesWithin within item).foldl (P.relax item) s = s ∨
      costs ((P.edgesWithin within item).foldl (P.relax item) s) < costs s :=
  P.foldl_relax_costs item _ s

/-- **The search**, until a goal is the cheapest node or the queue is empty. -/
def find [Finite ι] [WellFoundedLT κ] (s : State ι κ σ) : Option ι × (ι → Entry ι κ σ) :=
  match _h : s.queue with
  | [] => (none, s.entries)
  | item :: rest =>
      if (s.entries item.2).cost ≠ (item.1 : WithTop κ) then find { s with queue := rest }
      else if isGoal item.2 then (some item.2, s.entries)
      else find ((P.edgesWithin within item).foldl (P.relax item) { s with queue := rest })
termination_by (costs s, s.queue.length)
decreasing_by
  · exact Prod.Lex.right _ (by rw [_h]; simp)
  · rcases P.foldl_edgesWithin_costs within item { s with queue := rest } with hsame | hlt
    · rw [hsame, _h]
      exact Prod.Lex.right _ (by simp)
    · exact Prod.Lex.left _ _ hlt

variable {P within isGoal}

theorem find_nil [Finite ι] [WellFoundedLT κ] {s : State ι κ σ} (h : s.queue = []) :
    P.find within isGoal s = (none, s.entries) := by
  rw [find.eq_def]
  split
  · rfl
  · rename_i item rest hqueue
    simp [h] at hqueue

theorem find_cons [Finite ι] [WellFoundedLT κ] {s : State ι κ σ} {item : κ × ι}
    {rest : List (κ × ι)} (h : s.queue = item :: rest) :
    P.find within isGoal s =
      if (s.entries item.2).cost ≠ (item.1 : WithTop κ) then
        P.find within isGoal { s with queue := rest }
      else if isGoal item.2 then (some item.2, s.entries)
      else P.find within isGoal
        ((P.edgesWithin within item).foldl (P.relax item) { s with queue := rest }) := by
  rw [find.eq_def]
  split
  · rename_i hqueue
    simp [h] at hqueue
  · rename_i item' rest' hqueue
    obtain ⟨rfl, rfl⟩ := List.cons.inj (h.symm.trans hqueue)
    rfl

end Search

/-! ### What is found -/

section Sound

variable [LinearOrder ι] [LinearOrder κ] {P : Problem ι κ σ} {within : κ → Bool} {isGoal : ι → Bool}
  {root : ι} {weight : κ → ℕ}

omit [LinearOrder ι] [LinearOrder κ] in
theorem mem_edges_of_mem_edgesWithin {item : κ × ι} {edge : σ × ι}
    (h : edge ∈ P.edgesWithin within item) : edge ∈ P.edges item.2 :=
  List.mem_of_mem_filter h

/-- What the search knows is chained. -/
theorem find_chained [Finite ι] [WellFoundedLT κ] (hmono : Monotone weight) (hext : ExtendMono P)
    (hextend : ∀ c i edge, edge ∈ P.edges i → weight c < weight (P.extend c edge.1))
    {s : State ι κ σ} (h : Chained P root weight s.entries) :
    Chained P root weight (P.find within isGoal s).2 := by
  induction s using Problem.find.induct P within isGoal with
  | case1 s hqueue =>
      rw [find_nil hqueue]
      exact h
  | case2 s item rest hqueue hstale ih =>
      rw [find_cons hqueue, if_pos hstale]
      exact ih h
  | case3 s item rest hqueue hfresh hgoal =>
      rw [find_cons hqueue, if_neg hfresh, if_pos hgoal]
      exact h
  | case4 s item rest hqueue hfresh hgoal ih =>
      rw [find_cons hqueue, if_neg hfresh, if_neg hgoal]
      have hedges : ∀ edge ∈ P.edgesWithin within item, edge ∈ P.edges item.2 := by
        intro edge hedge
        exact mem_edges_of_mem_edgesWithin hedge
      have hcost : (s.entries item.2).cost = (item.1 : WithTop κ) := not_not.mp hfresh
      exact ih (Chained.foldl_relax hmono hext hextend hedges (s := { s with queue := rest }) hcost h)

end Sound

/-! ### Nothing is cheaper -/

/-- A path of the graph whose costs from a start are within the limit all along. -/
inductive WithinPath (P : Problem ι κ σ) (within : κ → Bool) (root : ι) (zero : κ) :
    List σ → ι → Prop
  | nil : WithinPath P within root zero [] root
  | snoc {steps : List σ} {i j : ι} {edge : σ} :
      WithinPath P within root zero steps i → (edge, j) ∈ P.edges i →
      within (P.extend (steps.foldl P.extend zero) edge) = true →
      WithinPath P within root zero (steps ++ [edge]) j

theorem WithinPath.of_path [LE κ] {P : Problem ι κ σ} {within : κ → Bool} {root : ι} {zero : κ}
    (hextend : ∀ c i edge, edge ∈ P.edges i → c ≤ P.extend c edge.1)
    (hdown : ∀ a b, a ≤ b → within b = true → within a = true) {steps : List σ} {i : ι}
    (h : Path P root steps i) (hlimit : within (steps.foldl P.extend zero) = true) :
    WithinPath P within root zero steps i := by
  induction h with
  | nil => exact .nil
  | @snoc steps i j edge _ hedge ih =>
      rw [List.foldl_append, List.foldl_cons, List.foldl_nil] at hlimit
      exact .snoc (ih (hdown _ _ (hextend _ _ _ hedge) hlimit)) hedge hlimit

section Optimal

variable [LinearOrder ι] [LinearOrder κ] {P : Problem ι κ σ} {within : κ → Bool} {isGoal : ι → Bool}
  {root : ι} {zero : κ}
variable {item : κ × ι} {s : State ι κ σ}

/-- No edge within the limit from the node `i` with the cost `c` improves a cost. -/
def ExhaustedWithin (P : Problem ι κ σ) (within : κ → Bool) (entries : ι → Entry ι κ σ) (i : ι)
    (c : κ) : Prop :=
  ∀ edge ∈ P.edges i, within (P.extend c edge.1) = true →
    (entries edge.2).cost ≤ (P.extend c edge.1 : WithTop κ)

/-- A node other than `current` that has been reached waits in the queue, or it is no goal and its
edges within the limit improve nothing. -/
def Pending (P : Problem ι κ σ) (within : κ → Bool) (isGoal : ι → Bool) (current : Option ι)
    (s : State ι κ σ) : Prop :=
  ∀ (i : ι) (c : κ), (s.entries i).cost = (c : WithTop κ) → some i ≠ current →
    (c, i) ∈ s.queue ∨ isGoal i = false ∧ ExhaustedWithin P within s.entries i c

theorem Pending.relax {current : Option ι} {edge : σ × ι} (h : Pending P within isGoal current s) :
    Pending P within isGoal current (P.relax item s edge) := by
  intro i c hc hi
  rcases relax_cases hc with hmem | ⟨hc, hkept⟩
  · exact Or.inl hmem
  · rcases h i c hc hi with hmem | ⟨hgoal, hexhausted⟩
    · exact Or.inl (hkept hmem)
    · exact Or.inr ⟨hgoal, fun other hother hlimit =>
        (relax_cost_le item s edge _).trans (hexhausted other hother hlimit)⟩

theorem Pending.foldl_relax {current : Option ι} (edges : List (σ × ι))
    (h : Pending P within isGoal current s) :
    Pending P within isGoal current (edges.foldl (P.relax item) s) := by
  induction edges generalizing s with
  | nil => exact h
  | cons edge edges ih => exact ih h.relax

def Ordered (s : State ι κ σ) : Prop := s.queue.Pairwise fun a b => toLex a ≤ toLex b

theorem Ordered.relax {edge : σ × ι} (h : Ordered s) : Ordered (P.relax item s edge) := by
  by_cases hlt : (P.extend item.1 edge.1 : WithTop κ) < (s.entries edge.2).cost
  · rw [Ordered, (relax_of_lt hlt).2]
    exact List.Pairwise.orderedInsert _ _ h
  · rw [relax_of_not_lt hlt]
    exact h

theorem Ordered.foldl_relax (edges : List (σ × ι))
    (h : Ordered s) : Ordered (edges.foldl (P.relax item) s) := by
  induction edges generalizing s with
  | nil => exact h
  | cons edge edges ih => exact ih h.relax

theorem Ordered.head_le (h : Ordered s) {other : κ × ι}
    {rest : List (κ × ι)} (hqueue : s.queue = item :: rest) (hmem : other ∈ s.queue) :
    item.1 ≤ other.1 := by
  rw [Ordered, hqueue] at h
  rw [hqueue] at hmem
  rcases List.mem_cons.mp hmem with rfl | hmem
  · exact le_refl _
  · rcases Prod.Lex.le_iff.mp ((List.pairwise_cons.mp h).1 other hmem) with hlt | ⟨heq, _⟩
    · exact hlt.le
    · exact heq.le

/-- What holds of the state of the search all along. -/
structure Searching (P : Problem ι κ σ) (within : κ → Bool) (isGoal : ι → Bool) (root : ι)
    (zero : κ) (s : State ι κ σ) : Prop where
  root : (s.entries root).cost ≤ (zero : WithTop κ)
  ordered : Ordered s
  pending : Pending P within isGoal none s

/-- On a path to a goal there is a node that waits, at no more than the path costs. -/
theorem Searching.exists_waiting (hext : ExtendMono P)
    (hextend : ∀ c i edge, edge ∈ P.edges i → c ≤ P.extend c edge.1)
    (hdown : ∀ a b, a ≤ b → within b = true → within a = true)
    (h : Searching P within isGoal root zero s) {steps : List σ} {i : ι}
    (hpath : WithinPath P within root zero steps i) (hgoal : isGoal i = true) :
    ∃ item ∈ s.queue, item.1 ≤ steps.foldl P.extend zero := by
  have hreached : ∀ {j : ι} {bound : κ}, (s.entries j).cost ≤ (bound : WithTop κ) →
      (∃ item ∈ s.queue, item.1 ≤ bound) ∨
        isGoal j = false ∧ ∃ c : κ, c ≤ bound ∧ ExhaustedWithin P within s.entries j c := by
    intro j bound hle
    obtain ⟨c, hc⟩ := WithTop.ne_top_iff_exists.mp (ne_top_of_le_ne_top WithTop.coe_ne_top hle)
    rw [← hc, WithTop.coe_le_coe] at hle
    rcases h.pending j c hc.symm (by simp) with hmem | ⟨hno, hexhausted⟩
    · exact Or.inl ⟨(c, j), hmem, hle⟩
    · exact Or.inr ⟨hno, c, hle, hexhausted⟩
  -- either a node waits, or the last node of the path so far has been exhausted
  have hgeneral : ∀ {steps : List σ} {j : ι}, WithinPath P within root zero steps j →
      (∃ item ∈ s.queue, item.1 ≤ steps.foldl P.extend zero) ∨
        isGoal j = false ∧ ∃ c : κ, c ≤ steps.foldl P.extend zero ∧
          ExhaustedWithin P within s.entries j c := by
    intro steps j hpath
    induction hpath with
    | nil => exact hreached h.root
    | @snoc steps i j edge _ hedge hlimit ih =>
        rw [List.foldl_append, List.foldl_cons, List.foldl_nil]
        rcases ih with ⟨item, hmem, hle⟩ | ⟨_, c, hle, hexhausted⟩
        · exact Or.inl ⟨item, hmem, hle.trans (hextend _ _ _ hedge)⟩
        · have hextended := hext _ _ edge hle
          exact hreached ((hexhausted _ hedge (hdown _ _ hextended hlimit)).trans
            (WithTop.coe_le_coe.mpr hextended))
  rcases hgeneral hpath with hwaiting | ⟨hno, _⟩
  · exact hwaiting
  · rw [hgoal] at hno
    exact absurd hno (by simp)

/-- **The goal that is found is the cheapest, and it is found if there is a path to a goal within
the limit.** -/
theorem find_spec [Finite ι] [WellFoundedLT κ] (hext : ExtendMono P)
    (hextend : ∀ c i edge, edge ∈ P.edges i → c ≤ P.extend c edge.1)
    (hdown : ∀ a b, a ≤ b → within b = true → within a = true)
    (h : Searching P within isGoal root zero s) :
    (∀ i, (P.find within isGoal s).1 = some i → isGoal i = true ∧
      ∃ c : κ, ((P.find within isGoal s).2 i).cost = (c : WithTop κ) ∧
        ∀ steps j, WithinPath P within root zero steps j → isGoal j = true →
          c ≤ steps.foldl P.extend zero) ∧
    ((P.find within isGoal s).1 = none →
      ∀ steps j, WithinPath P within root zero steps j → isGoal j = false) := by
  induction s using Problem.find.induct P within isGoal with
  | case1 s hqueue =>
      rw [find_nil hqueue]
      -- on every path to a goal some item is still waiting
      refine ⟨by simp, ?_⟩
      intro _ steps j hpath
      by_contra hgoal
      rw [Bool.not_eq_false] at hgoal
      obtain ⟨item, hmem, _⟩ := h.exists_waiting hext hextend hdown hpath hgoal
      simp [hqueue] at hmem
  | case2 s item rest hqueue hstale ih =>
      rw [find_cons hqueue, if_pos hstale]
      refine ih ⟨h.root, ?_, ?_⟩
      · have hordered := h.ordered
        rw [Ordered, hqueue] at hordered
        exact (List.pairwise_cons.mp hordered).2
      · intro i c hc hi
        rcases h.pending i c hc hi with hmem | hexhausted
        · rw [hqueue] at hmem
          rcases List.mem_cons.mp hmem with heq | hmem
          -- the item that is dropped was overtaken by a cheaper one
          · subst heq
            exact absurd hc hstale
          · exact Or.inl hmem
        · exact Or.inr hexhausted
  | case3 s item rest hqueue hfresh hgoal =>
      rw [find_cons hqueue, if_neg hfresh, if_pos hgoal]
      refine ⟨?_, by simp⟩
      rintro i ⟨⟩
      -- the head of the queue is the cheapest waiting item
      refine ⟨hgoal, item.1, not_not.mp hfresh, ?_⟩
      intro steps j hpath hj
      obtain ⟨other, hmem, hle⟩ := h.exists_waiting hext hextend hdown hpath hj
      exact (h.ordered.head_le hqueue hmem).trans hle
  | case4 s item rest hqueue hfresh hgoal ih =>
      rw [find_cons hqueue, if_neg hfresh, if_neg hgoal]
      have hcost : (s.entries item.2).cost = (item.1 : WithTop κ) := not_not.mp hfresh
      have hordered : Ordered { s with queue := rest } := by
        have hordered := h.ordered
        rw [Ordered, hqueue] at hordered
        exact (List.pairwise_cons.mp hordered).2
      have hothers : Pending P within isGoal (some item.2) { s with queue := rest } := by
        intro i c hc hi
        rcases h.pending i c hc (by simp) with hmem | hexhausted
        · rw [hqueue] at hmem
          rcases List.mem_cons.mp hmem with heq | hmem
          · exact absurd (congrArg (fun x => some x.2) heq) hi
          · exact Or.inl hmem
        · exact Or.inr hexhausted
      refine ih ⟨?_, hordered.foldl_relax _, ?_⟩
      · exact (foldl_relax_cost_le item _ _ root).trans h.root
      · intro i c hc _
        by_cases hi : some i = some item.2
        · obtain rfl := Option.some.inj hi
          refine Or.inr ⟨by simpa using hgoal, ?_⟩
          intro edge hedge hlimit
          have hedges : ∀ edge ∈ P.edgesWithin within item, edge ∈ P.edges item.2 := by
            intro edge hedge
            exact mem_edges_of_mem_edgesWithin hedge
          have hsource := foldl_relax_source hextend hedges (s := { s with queue := rest }) hcost
          rw [hsource] at hc
          obtain rfl := WithTop.coe_injective hc
          exact foldl_relax_edge_le (List.mem_filter.mpr ⟨hedge, hlimit⟩) _
        · exact hothers.foldl_relax _ i c hc hi

end Optimal

end Problem

end Relaxation
