/-
Shortest paths by relaxation.

A search from a root keeps, for every node, the best cost found so far and the edge it was reached
by, and a queue of the nodes whose cost was improved, the cheapest first.  The nodes are finite in
number and the costs are well-founded, which is why the search ends.

Main definitions:

* `Relaxation.Problem` — the edges of a graph and what an edge adds to a cost;
* `Relaxation.Problem.run` — the search;
* `Relaxation.Problem.trace` — the edges back from a node to the root;
* `Relaxation.Problem.Path` — a path of the graph.

Main results:

* `Relaxation.Problem.run_chained` — every node that is reached is reached by an edge from a cheaper
  node that is reached;
* `Relaxation.Problem.trace_spec` — **so the edges back from a node are a path from the root**, which
  costs no more than was found;
* `Relaxation.Problem.run_closed` — no edge from a node that is reached improves a cost;
* `Relaxation.Problem.exists_cost_le` — **so every path costs at least what was found for its end**.
-/

import Mathlib.Data.DFinsupp.WellFounded
import Mathlib.Data.List.Sort
import Mathlib.Data.Prod.Lex
import Mathlib.Order.WithBot

set_option autoImplicit false

namespace Relaxation

variable {ι κ σ : Type}

/-! ### The search -/

/-- What is known of a node: the best cost so far and the edge it was reached by. -/
structure Entry (ι κ σ : Type) where
  cost : WithTop κ := ⊤
  incoming : Option (ι × σ) := none

structure State (ι κ σ : Type) where
  entries : ι → Entry ι κ σ
  queue : List (κ × ι)

/-- A graph with labelled edges, and the cost of a path that is extended by an edge. -/
structure Problem (ι κ σ : Type) where
  edges : ι → List (σ × ι)
  extend : κ → σ → κ

namespace Problem

section Search

variable [LinearOrder ι] [LinearOrder κ] (P : Problem ι κ σ)

/-- The queue is kept in the order of costs, and of nodes where the costs are equal. -/
def push (item : κ × ι) (queue : List (κ × ι)) : List (κ × ι) :=
  queue.orderedInsert (fun a b => toLex a ≤ toLex b) item

/-- An edge from a node with the cost `item.1` improves the cost of its target, or does nothing. -/
def relax (item : κ × ι) (s : State ι κ σ) (edge : σ × ι) : State ι κ σ :=
  if (P.extend item.1 edge.1 : WithTop κ) < (s.entries edge.2).cost then
    { entries := Function.update s.entries edge.2
        ⟨P.extend item.1 edge.1, some (item.2, edge.1)⟩
      queue := push (P.extend item.1 edge.1, edge.2) s.queue }
  else s

/-- An item of the queue is processed unless a better cost of its node has been found since. -/
def process (item : κ × ι) (s : State ι κ σ) : State ι κ σ :=
  if (s.entries item.2).cost = (item.1 : WithTop κ) then (P.edges item.2).foldl (P.relax item) s
  else s

/-- The costs of the nodes, which never grow. -/
def costs (s : State ι κ σ) : ι → WithTop κ := fun i => (s.entries i).cost

theorem relax_costs (item : κ × ι) (s : State ι κ σ) (edge : σ × ι) :
    P.relax item s edge = s ∨ costs (P.relax item s edge) < costs s := by
  unfold relax
  split_ifs with h
  · right
    refine Pi.lt_def.2 ⟨fun i => ?_, edge.2, by simpa [costs] using h⟩
    by_cases hi : i = edge.2
    · subst hi
      simpa [costs] using h.le
    · simp [costs, Function.update_of_ne hi]
  · exact .inl rfl

theorem foldl_relax_costs (item : κ × ι) (edges : List (σ × ι)) (s : State ι κ σ) :
    edges.foldl (P.relax item) s = s ∨ costs (edges.foldl (P.relax item) s) < costs s := by
  induction edges generalizing s with
  | nil => exact .inl rfl
  | cons edge edges ih =>
      rw [List.foldl_cons]
      rcases P.relax_costs item s edge with hsame | hlt
      · rw [hsame]
        exact ih s
      · right
        rcases ih (P.relax item s edge) with hsame' | hlt'
        · rw [hsame']
          exact hlt
        · exact hlt'.trans hlt

theorem process_costs (item : κ × ι) (s : State ι κ σ) :
    P.process item s = s ∨ costs (P.process item s) < costs s := by
  unfold process
  split_ifs
  · exact P.foldl_relax_costs item _ s
  · exact .inl rfl

/-- Costs cannot go down for ever. -/
instance [Finite ι] [WellFoundedLT κ] : WellFoundedRelation (ι → WithTop κ) :=
  WellFoundedLT.toWellFoundedRelation

/-- **The search**, until the queue is empty. -/
def run [Finite ι] [WellFoundedLT κ] (s : State ι κ σ) : ι → Entry ι κ σ :=
  match _h : s.queue with
  | [] => s.entries
  | item :: rest => run (P.process item { s with queue := rest })
termination_by (costs s, s.queue.length)
decreasing_by
  rcases P.process_costs item { s with queue := rest } with hsame | hlt
  · rw [hsame, _h]
    exact Prod.Lex.right _ (by simp)
  · exact Prod.Lex.left _ _ hlt

theorem run_nil [Finite ι] [WellFoundedLT κ] {s : State ι κ σ} (h : s.queue = []) :
    P.run s = s.entries := by
  rw [run.eq_def]
  split
  · rfl
  · rename_i item rest hqueue
    simp [h] at hqueue

theorem run_cons [Finite ι] [WellFoundedLT κ] {s : State ι κ σ} {item : κ × ι}
    {rest : List (κ × ι)} (h : s.queue = item :: rest) :
    P.run s = P.run (P.process item { s with queue := rest }) := by
  rw [run.eq_def]
  split
  · rename_i hqueue
    simp [h] at hqueue
  · rename_i item' rest' hqueue
    obtain ⟨rfl, rfl⟩ := List.cons.inj (h.symm.trans hqueue)
    rfl

/-- The edges back from a node to the root, followed at most `fuel` times. -/
def trace (root : ι) (entries : ι → Entry ι κ σ) : ℕ → ι → Option (List σ)
  | 0, i => if i = root then some [] else none
  | fuel + 1, i =>
      if i = root then some []
      else
        match (entries i).incoming with
        | some (predecessor, edge) => (trace root entries fuel predecessor).map (· ++ [edge])
        | none => none

end Search

/-! ### Paths -/

/-- A path of the graph, with the labels of its edges. -/
inductive Path (P : Problem ι κ σ) (root : ι) : List σ → ι → Prop
  | nil : Path P root [] root
  | snoc {steps : List σ} {i j : ι} {edge : σ} :
      Path P root steps i → (edge, j) ∈ P.edges i → Path P root (steps ++ [edge]) j

/-- Every node other than the root that has been reached has been reached by an edge from a node of
smaller weight, whose cost the edge extends to no more than the cost of the node. -/
def Chained [LE κ] (P : Problem ι κ σ) (root : ι) (weight : κ → ℕ) (entries : ι → Entry ι κ σ) :
    Prop :=
  ∀ (i : ι) (c : κ), (entries i).cost = (c : WithTop κ) → i ≠ root → ∃ (p : ι) (edge : σ) (cp : κ),
    (entries i).incoming = some (p, edge) ∧ (edge, i) ∈ P.edges p ∧
      (entries p).cost = (cp : WithTop κ) ∧ weight cp < weight c ∧ P.extend cp edge ≤ c

/-- A longer path from a cheaper start stays cheaper. -/
def ExtendMono [LE κ] (P : Problem ι κ σ) : Prop :=
  ∀ (a b : κ) (edge : σ), a ≤ b → P.extend a edge ≤ P.extend b edge

section Sound

variable [LinearOrder ι] [LinearOrder κ] {P : Problem ι κ σ} {root : ι} {weight : κ → ℕ}

/-- Relaxing an edge keeps the chain and the cost of the node it comes from. -/
theorem Chained.relax (hmono : Monotone weight) (hext : ExtendMono P)
    (hextend : ∀ c i edge, edge ∈ P.edges i → weight c < weight (P.extend c edge.1))
    {item : κ × ι} {s : State ι κ σ} {edge : σ × ι} (hedge : edge ∈ P.edges item.2)
    (hcost : (s.entries item.2).cost = (item.1 : WithTop κ)) (h : Chained P root weight s.entries) :
    Chained P root weight (P.relax item s edge).entries ∧
      ((P.relax item s edge).entries item.2).cost = (item.1 : WithTop κ) := by
  by_cases hlt : (P.extend item.1 edge.1 : WithTop κ) < (s.entries edge.2).cost
  · have hentries : (P.relax item s edge).entries = Function.update s.entries edge.2
        ⟨P.extend item.1 edge.1, some (item.2, edge.1)⟩ := by
      rw [Problem.relax, if_pos hlt]
    have hne : item.2 ≠ edge.2 := by
      intro heq
      rw [← heq, hcost, WithTop.coe_lt_coe] at hlt
      exact absurd (hmono hlt.le) (not_le.2 (hextend _ _ _ hedge))
    rw [hentries]
    refine ⟨?_, by rw [Function.update_of_ne hne, hcost]⟩
    intro i c hc hi
    by_cases hedge' : i = edge.2
    · subst hedge'
      rw [Function.update_self] at hc ⊢
      obtain rfl := WithTop.coe_injective hc
      exact ⟨item.2, edge.1, item.1, rfl, hedge, by rw [Function.update_of_ne hne, hcost],
        hextend _ _ _ hedge, le_rfl⟩
    · rw [Function.update_of_ne hedge'] at hc ⊢
      obtain ⟨p, e, cp, hin, he, hcp, hw, hle⟩ := h i c hc hi
      by_cases hp : p = edge.2
      -- the node `i` was reached from has become cheaper
      · subst hp
        rw [hcp, WithTop.coe_lt_coe] at hlt
        exact ⟨_, e, _, hin, he, by rw [Function.update_self], (hmono hlt.le).trans_lt hw,
          (hext _ _ e hlt.le).trans hle⟩
      · exact ⟨p, e, cp, hin, he, by rw [Function.update_of_ne hp, hcp], hw, hle⟩
  · rw [Problem.relax, if_neg hlt]
    exact ⟨h, hcost⟩

theorem Chained.foldl_relax (hmono : Monotone weight) (hext : ExtendMono P)
    (hextend : ∀ c i edge, edge ∈ P.edges i → weight c < weight (P.extend c edge.1))
    {item : κ × ι} {edges : List (σ × ι)} (hedges : ∀ edge ∈ edges, edge ∈ P.edges item.2)
    {s : State ι κ σ} (hcost : (s.entries item.2).cost = (item.1 : WithTop κ))
    (h : Chained P root weight s.entries) :
    Chained P root weight (edges.foldl (P.relax item) s).entries := by
  induction edges generalizing s with
  | nil => exact h
  | cons edge edges ih =>
      obtain ⟨h', hcost'⟩ := h.relax hmono hext hextend (hedges edge (List.mem_cons_self ..)) hcost
      exact ih (fun e he => hedges e (List.mem_cons_of_mem _ he)) hcost' h'

/-- **What the search finds is chained.** -/
theorem run_chained [Finite ι] [WellFoundedLT κ] (hmono : Monotone weight) (hext : ExtendMono P)
    (hextend : ∀ c i edge, edge ∈ P.edges i → weight c < weight (P.extend c edge.1))
    {s : State ι κ σ} (h : Chained P root weight s.entries) : Chained P root weight (P.run s) := by
  induction s using Problem.run.induct P with
  | case1 s hqueue =>
      rw [P.run_nil hqueue]
      exact h
  | case2 s item rest hqueue ih =>
      rw [P.run_cons hqueue]
      refine ih ?_
      unfold process
      split_ifs with hcost
      · exact h.foldl_relax hmono hext hextend (fun _ he => he) hcost
      · exact h

/-- **The edges back from a node that has been reached are a path from the root**, which costs no
more than what was found for the node. -/
theorem trace_spec (hext : ExtendMono P) {zero : κ} (hzero : ∀ c, zero ≤ c)
    {entries : ι → Entry ι κ σ} (h : Chained P root weight entries) {fuel : ℕ} {i : ι}
    {c : κ} (hc : (entries i).cost = (c : WithTop κ)) (hfuel : weight c ≤ fuel) :
    ∃ steps, trace root entries fuel i = some steps ∧ Path P root steps i ∧
      steps.foldl P.extend zero ≤ c := by
  induction fuel generalizing i c with
  | zero =>
      by_cases hi : i = root
      · subst hi
        exact ⟨[], by simp [trace], .nil, hzero c⟩
      · obtain ⟨p, e, cp, -, -, -, hw, -⟩ := h i c hc hi
        omega
  | succ fuel ih =>
      by_cases hi : i = root
      · subst hi
        exact ⟨[], by simp [trace], .nil, hzero c⟩
      · obtain ⟨p, e, cp, hin, he, hcp, hw, hle⟩ := h i c hc hi
        obtain ⟨steps, hsteps, hpath, hcost⟩ := ih hcp (by omega)
        refine ⟨steps ++ [e], by simp [trace, hi, hin, hsteps], hpath.snoc he, ?_⟩
        rw [List.foldl_append, List.foldl_cons, List.foldl_nil]
        exact (hext _ _ e hcost).trans hle

end Sound

/-! ### Nothing is cheaper -/

section Optimal

variable [LinearOrder ι] [LinearOrder κ] {P : Problem ι κ σ} {root : ι}
variable {item : κ × ι} {s : State ι κ σ} {edge : σ × ι}

/-- No edge from the node `i` with the cost `c` improves a cost. -/
def ExhaustedAt (P : Problem ι κ σ) (entries : ι → Entry ι κ σ) (i : ι) (c : κ) : Prop :=
  ∀ edge ∈ P.edges i, (entries edge.2).cost ≤ (P.extend c edge.1 : WithTop κ)

/-- A node other than `current` that has been reached waits in the queue, or its edges improve
nothing. -/
def Waiting (P : Problem ι κ σ) (current : Option ι) (s : State ι κ σ) : Prop :=
  ∀ (i : ι) (c : κ), (s.entries i).cost = (c : WithTop κ) → some i ≠ current →
    (c, i) ∈ s.queue ∨ ExhaustedAt P s.entries i c

theorem relax_of_lt (h : (P.extend item.1 edge.1 : WithTop κ) < (s.entries edge.2).cost) :
    (P.relax item s edge).entries = Function.update s.entries edge.2
        ⟨P.extend item.1 edge.1, some (item.2, edge.1)⟩ ∧
      (P.relax item s edge).queue = push (P.extend item.1 edge.1, edge.2) s.queue := by
  rw [Problem.relax, if_pos h]
  exact ⟨rfl, rfl⟩

theorem relax_of_not_lt (h : ¬ (P.extend item.1 edge.1 : WithTop κ) < (s.entries edge.2).cost) :
    P.relax item s edge = s := by
  rw [Problem.relax, if_neg h]

theorem relax_cost_le (item : κ × ι) (s : State ι κ σ) (edge : σ × ι) (i : ι) :
    ((P.relax item s edge).entries i).cost ≤ (s.entries i).cost := by
  rcases P.relax_costs item s edge with hsame | hlt
  · rw [hsame]
  · exact hlt.le i

theorem relax_edge_le (item : κ × ι) (s : State ι κ σ) (edge : σ × ι) :
    ((P.relax item s edge).entries edge.2).cost ≤ (P.extend item.1 edge.1 : WithTop κ) := by
  by_cases h : (P.extend item.1 edge.1 : WithTop κ) < (s.entries edge.2).cost
  · rw [(relax_of_lt h).1, Function.update_self]
  · rw [relax_of_not_lt h]
    exact not_lt.mp h

theorem foldl_relax_cost_le (item : κ × ι) (edges : List (σ × ι)) (s : State ι κ σ) (i : ι) :
    ((edges.foldl (P.relax item) s).entries i).cost ≤ (s.entries i).cost := by
  rcases P.foldl_relax_costs item edges s with hsame | hlt
  · rw [hsame]
  · exact hlt.le i

theorem mem_push {other : κ × ι} {queue : List (κ × ι)} :
    other ∈ push item queue ↔ other = item ∨ other ∈ queue := by
  rw [push, List.mem_orderedInsert]

/-- A node whose cost is finite after a relaxation is queued by it, or has the cost it had and waits
where it waited. -/
theorem relax_cases {i : ι} {c : κ} (hc : ((P.relax item s edge).entries i).cost = (c : WithTop κ)) :
    (c, i) ∈ (P.relax item s edge).queue ∨ (s.entries i).cost = (c : WithTop κ) ∧
      ((c, i) ∈ s.queue → (c, i) ∈ (P.relax item s edge).queue) := by
  by_cases hlt : (P.extend item.1 edge.1 : WithTop κ) < (s.entries edge.2).cost
  · obtain ⟨hentries, hqueue⟩ := relax_of_lt hlt
    rw [hqueue]
    by_cases hedge : i = edge.2
    · subst hedge
      rw [hentries, Function.update_self] at hc
      obtain rfl := WithTop.coe_injective hc
      exact Or.inl (mem_push.mpr (Or.inl rfl))
    · rw [hentries, Function.update_of_ne hedge] at hc
      exact Or.inr ⟨hc, fun hmem => mem_push.mpr (Or.inr hmem)⟩
  · rw [relax_of_not_lt hlt] at hc ⊢
    exact Or.inr ⟨hc, id⟩

theorem Waiting.relax {current : Option ι}
    (h : Waiting P current s) : Waiting P current (P.relax item s edge) := by
  intro i c hc hi
  rcases relax_cases hc with hmem | ⟨hc, hkept⟩
  · exact Or.inl hmem
  · rcases h i c hc hi with hmem | hexhausted
    · exact Or.inl (hkept hmem)
    · exact Or.inr fun other hother =>
        (relax_cost_le item s edge _).trans (hexhausted other hother)

theorem Waiting.foldl_relax {current : Option ι} (edges : List (σ × ι)) (h : Waiting P current s) :
    Waiting P current (edges.foldl (P.relax item) s) := by
  induction edges generalizing s with
  | nil => exact h
  | cons edge edges ih => exact ih h.relax

theorem foldl_relax_edge_le {edges : List (σ × ι)} (h : edge ∈ edges)
    (s : State ι κ σ) : ((edges.foldl (P.relax item) s).entries edge.2).cost ≤
      (P.extend item.1 edge.1 : WithTop κ) := by
  induction edges generalizing s with
  | nil => exact absurd h (by simp)
  | cons first edges ih =>
      rw [List.foldl_cons]
      rcases List.mem_cons.mp h with rfl | h
      · exact (foldl_relax_cost_le item edges _ _).trans (relax_edge_le item s edge)
      · exact ih h _

/-- Edges that only add to a cost do not make the node they come from cheaper. -/
theorem foldl_relax_source (hextend : ∀ c i edge, edge ∈ P.edges i → c ≤ P.extend c edge.1)
    {edges : List (σ × ι)} (hedges : ∀ edge ∈ edges, edge ∈ P.edges item.2)
    (hcost : (s.entries item.2).cost = (item.1 : WithTop κ)) :
    ((edges.foldl (P.relax item) s).entries item.2).cost = (item.1 : WithTop κ) := by
  induction edges generalizing s with
  | nil => exact hcost
  | cons edge edges ih =>
      refine ih (fun e he => hedges e (List.mem_cons_of_mem _ he)) ?_
      by_cases hlt : (P.extend item.1 edge.1 : WithTop κ) < (s.entries edge.2).cost
      · have hne : item.2 ≠ edge.2 := by
          intro heq
          rw [← heq, hcost, WithTop.coe_lt_coe] at hlt
          exact absurd (hextend _ _ _ (hedges edge List.mem_cons_self)) (not_le.mpr hlt)
        rw [(relax_of_lt hlt).1, Function.update_of_ne hne, hcost]
      · rw [relax_of_not_lt hlt, hcost]

/-- Processing the first item of the queue leaves no other node behind. -/
theorem Waiting.process (hextend : ∀ c i edge, edge ∈ P.edges i → c ≤ P.extend c edge.1)
    {rest : List (κ × ι)} (hqueue : s.queue = item :: rest)
    (h : Waiting P none s) : Waiting P none (P.process item { s with queue := rest }) := by
  have hothers : Waiting P (some item.2) { s with queue := rest } := by
    intro i c hc hi
    rcases h i c hc (by simp) with hmem | hexhausted
    · rw [hqueue] at hmem
      rcases List.mem_cons.mp hmem with heq | hmem
      · exact absurd (congrArg (fun x => some x.2) heq) hi
      · exact Or.inl hmem
    · exact Or.inr hexhausted
  unfold Problem.process
  split_ifs with hcost
  · intro i c hc _
    by_cases hi : some i = some item.2
    · obtain rfl := Option.some.inj hi
      refine Or.inr fun edge hedge => ?_
      rw [foldl_relax_source hextend (fun _ he => he) hcost] at hc
      obtain rfl := WithTop.coe_injective hc
      exact foldl_relax_edge_le hedge _
    · exact hothers.foldl_relax _ i c hc hi
  · intro i c hc _
    by_cases hi : some i = some item.2
    · obtain rfl := Option.some.inj hi
      -- the item was overtaken by a cheaper one
      rcases h item.2 c hc (by simp) with hmem | hexhausted
      · rw [hqueue] at hmem
        rcases List.mem_cons.mp hmem with heq | hmem
        · refine absurd ?_ hcost
          rw [← heq]
          exact hc
        · exact Or.inl hmem
      · exact Or.inr hexhausted
    · exact hothers i c hc hi

/-- **At the end no edge from a node that is reached improves a cost.** -/
theorem run_closed [Finite ι] [WellFoundedLT κ]
    (hextend : ∀ c i edge, edge ∈ P.edges i → c ≤ P.extend c edge.1)
    (h : Waiting P none s) {i : ι} {c : κ} (hc : (P.run s i).cost = (c : WithTop κ)) :
    ExhaustedAt P (P.run s) i c := by
  induction s using Problem.run.induct P with
  | case1 s hqueue =>
      rw [P.run_nil hqueue] at hc ⊢
      rcases h i c hc (by simp) with hmem | hexhausted
      · simp [hqueue] at hmem
      · exact hexhausted
  | case2 s item rest hqueue ih =>
      rw [P.run_cons hqueue] at hc ⊢
      exact ih (h.process hextend hqueue) hc

theorem run_cost_le [Finite ι] [WellFoundedLT κ] (s : State ι κ σ) (i : ι) :
    (P.run s i).cost ≤ (s.entries i).cost := by
  induction s using Problem.run.induct P with
  | case1 s hqueue =>
      rw [P.run_nil hqueue]
  | case2 s item rest hqueue ih =>
      rw [P.run_cons hqueue]
      refine ih.trans ?_
      unfold Problem.process
      split_ifs
      · exact foldl_relax_cost_le item _ _ i
      · exact le_refl _

omit [LinearOrder ι] in
/-- **Every path costs at least what was found for its end.** -/
theorem exists_cost_le (hext : ExtendMono P) {entries : ι → Entry ι κ σ} {zero : κ}
    (hroot : (entries root).cost ≤ (zero : WithTop κ))
    (hclosed : ∀ (i : ι) (c : κ), (entries i).cost = (c : WithTop κ) → ExhaustedAt P entries i c)
    {steps : List σ} {i : ι} (h : Path P root steps i) :
    ∃ c : κ, (entries i).cost = (c : WithTop κ) ∧ c ≤ steps.foldl P.extend zero := by
  have hfinite : ∀ {i : ι} {bound : κ}, (entries i).cost ≤ (bound : WithTop κ) →
      ∃ c : κ, (entries i).cost = (c : WithTop κ) ∧ c ≤ bound := by
    intro i bound hle
    obtain ⟨c, hc⟩ := WithTop.ne_top_iff_exists.mp (ne_top_of_le_ne_top (WithTop.coe_ne_top) hle)
    refine ⟨c, hc.symm, ?_⟩
    rwa [← hc, WithTop.coe_le_coe] at hle
  induction h with
  | nil => exact hfinite hroot
  | @snoc steps i j edge _ hedge ih =>
      obtain ⟨c, hc, hle⟩ := ih
      refine hfinite ((hclosed i c hc _ hedge).trans ?_)
      rw [List.foldl_append, List.foldl_cons, List.foldl_nil]
      exact WithTop.coe_le_coe.mpr (hext _ _ edge hle)

end Optimal

end Problem

end Relaxation
