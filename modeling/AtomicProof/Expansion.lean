/-
Depth-first expansion of texts that include one another.

A node has a body, a row of lines and of references to other nodes.  Expanding a node writes its
lines and puts, in the place of a reference, the expansion of the node it refers to, unless that was
written already.  The walk keeps the nodes it has seen and the row of nodes it is inside of, and it
stops at a reference into that row.  The node the walk begins with counts as seen but is not in the
row, so a cycle through it goes unnoticed.

Main definitions:

* `Expansion.Item`, `Expansion.Event` — what a body consists of, and what is written;
* `Expansion.visit`, `Expansion.expand` — the walk;
* `Expansion.Refers`, `Expansion.Reachable`, `Expansion.Broken`, `Expansion.CyclePastRoot` — the
  graph;
* `Expansion.Wrote` — what a part of the walk has done.

Main results:

* `Expansion.visit_ne_outOfFuel` — the walk ends;
* `Expansion.expand_ok_iff` — **the walk goes through exactly when nothing is missing and every
  cycle passes through the root**;
* `Expansion.expand_lines` — **every line of every reachable node is written once, and in order**;
* `Expansion.expand_before` — **what a node refers to is written before the lines that follow**.
-/

import Mathlib.Data.List.Basic
import Mathlib.Data.List.Nodup
import Mathlib.Data.List.Perm.Subperm
import Mathlib.Logic.Relation

set_option autoImplicit false

namespace Expansion

variable {ν τ μ : Type}

/-! ### The walk -/

/-- A line, or a reference, whose target may be unknown. -/
inductive Item (ν τ μ : Type)
  | text (text : τ)
  | reference (mark : μ) (target : Option ν)
  deriving DecidableEq

/-- A line of a node with its place in the body, or the beginning or the end of what stands for a
reference. -/
inductive Event (ν τ μ : Type)
  | line (node : ν) (index : ℕ) (text : τ)
  | opened (mark : μ) (target : ν)
  | closed (mark : μ)

inductive Stop
  | outOfFuel | fault
  deriving DecidableEq, Repr

/-- The nodes that have been seen, and what has been written. -/
structure State (ν τ μ : Type) where
  visited : List ν
  events : List (Event ν τ μ)

def State.emit (state : State ν τ μ) (event : Event ν τ μ) : State ν τ μ :=
  { state with events := state.events ++ [event] }

def item (enter : ν → State ν τ μ → Except Stop (State ν τ μ)) (node : ν) (state : State ν τ μ)
    (entry : Item ν τ μ × ℕ) : Except Stop (State ν τ μ) :=
  match entry with
  | (.text text, index) => .ok (state.emit (.line node index text))
  | (.reference _ none, _) => .error .fault
  | (.reference mark (some target), _) => do
      let state ← enter target (state.emit (.opened mark target))
      pure (state.emit (.closed mark))

/-- The entries of a body, one after the other. -/
def items (enter : ν → State ν τ μ → Except Stop (State ν τ μ)) (node : ν)
    (entries : List (Item ν τ μ × ℕ)) (state : State ν τ μ) : Except Stop (State ν τ μ) :=
  entries.foldlM (item enter node) state

variable [DecidableEq ν]

/-- A node is entered from inside the nodes of `stack`. -/
def visit (body : ν → Option (List (Item ν τ μ))) :
    ℕ → List ν → ν → State ν τ μ → Except Stop (State ν τ μ)
  | 0, _, _, _ => .error .outOfFuel
  | fuel + 1, stack, node, state =>
      if node ∈ stack then .error .fault
      else if node ∈ state.visited then .ok state
      else
        match body node with
        | none => .error .fault
        | some entries =>
            items (visit body fuel (stack ++ [node])) node entries.zipIdx
              { state with visited := state.visited ++ [node] }

/-- The expansion of a root with a given body. -/
def expand (body : ν → Option (List (Item ν τ μ))) (fuel : ℕ) (root : ν)
    (entries : List (Item ν τ μ)) : Except Stop (State ν τ μ) :=
  items (visit body fuel []) root entries.zipIdx ⟨[root], []⟩

/-! ### The graph -/

section Graph

variable (body : ν → Option (List (Item ν τ μ)))

omit [DecidableEq ν] in
/-- The body of a node, and no entries where there is none. -/
def entriesOf (node : ν) : List (Item ν τ μ) := (body node).getD []

omit [DecidableEq ν] in
def Refers (node target : ν) : Prop := ∃ mark, Item.reference mark (some target) ∈ entriesOf body node

omit [DecidableEq ν] in
/-- A node that can be reached by references. -/
def Reachable (root node : ν) : Prop := Relation.ReflTransGen (Refers body) root node

omit [DecidableEq ν] in
/-- A reachable node has a reference whose target is unknown or has no body. -/
def Broken (root : ν) : Prop :=
  ∃ node, Reachable body root node ∧ ∃ mark target, Item.reference mark target ∈ entriesOf body node ∧
    ∀ t, target = some t → body t = none

omit [DecidableEq ν] in
/-- A reference between two nodes other than the root. -/
def RefersPast (root node target : ν) : Prop :=
  Refers body node target ∧ node ≠ root ∧ target ≠ root

omit [DecidableEq ν] in
/-- There is a cycle that does not pass through the root. -/
def CyclePastRoot (root : ν) : Prop :=
  ∃ node, Reachable body root node ∧ Relation.TransGen (RefersPast body root) node node

end Graph

/-! ### What is written -/

omit [DecidableEq ν] in
/-- The text entries of a row of entries, with their places. -/
def textsOf (entries : List (Item ν τ μ × ℕ)) : List (ℕ × τ) :=
  entries.filterMap fun entry =>
    match entry with
    | (.text text, index) => some (index, text)
    | _ => none

/-- The lines of a node among what has been written. -/
def linesOf (node : ν) (events : List (Event ν τ μ)) : List (ℕ × τ) :=
  events.filterMap fun event =>
    match event with
    | .line other index text => if other = node then some (index, text) else none
    | _ => none

section Texts

variable (entries others : List (Item ν τ μ × ℕ)) (events more : List (Event ν τ μ))

omit [DecidableEq ν] in
@[simp] theorem textsOf_nil : textsOf ([] : List (Item ν τ μ × ℕ)) = [] := rfl

omit [DecidableEq ν] in
@[simp] theorem textsOf_append : textsOf (entries ++ others) = textsOf entries ++ textsOf others :=
  List.filterMap_append

omit [DecidableEq ν] in
@[simp] theorem textsOf_text (text : τ) (index : ℕ) :
    textsOf [((.text text : Item ν τ μ), index)] = [(index, text)] := rfl

omit [DecidableEq ν] in
@[simp] theorem textsOf_reference (mark : μ) (target : Option ν) (index : ℕ) :
    textsOf [((.reference mark target : Item ν τ μ), index)] = [] := rfl

omit [DecidableEq ν] in
theorem mem_of_mem_textsOf {line : ℕ × τ} (h : line ∈ textsOf entries) :
    ∃ entry ∈ entries, entry.2 = line.1 := by
  obtain ⟨⟨item, index⟩, hmem, heq⟩ := List.mem_filterMap.1 h
  cases item with
  | text text =>
      refine ⟨_, hmem, ?_⟩
      rw [← Option.some.inj heq]
  | reference mark target => cases heq

variable (node : ν)

@[simp] theorem linesOf_nil : linesOf node ([] : List (Event ν τ μ)) = [] := rfl

@[simp] theorem linesOf_append :
    linesOf node (events ++ more) = linesOf node events ++ linesOf node more :=
  List.filterMap_append

@[simp] theorem linesOf_line (other : ν) (index : ℕ) (text : τ) :
    linesOf node [(.line other index text : Event ν τ μ)]
      = if other = node then [(index, text)] else [] := by
  by_cases h : other = node <;> simp [linesOf, h]

@[simp] theorem linesOf_opened (mark : μ) (target : ν) :
    linesOf node [(.opened mark target : Event ν τ μ)] = [] := rfl

@[simp] theorem linesOf_closed (mark : μ) :
    linesOf node [(.closed mark : Event ν τ μ)] = [] := rfl

end Texts

/-! ### What a part of the walk writes -/

section Wrote

variable (body : ν → Option (List (Item ν τ μ))) (root : ν)

/-- The entries that have been worked off when those in `own` of the open node `node` and the
whole nodes in `new` have. -/
def doneOf (node : ν) (own : List (Item ν τ μ × ℕ)) (new : List ν) (n : ν) :
    List (Item ν τ μ × ℕ) :=
  if n = node then own else if n ∈ new then (entriesOf body n).zipIdx else []

/-- What a part of the walk has done.  Inside of `stack`, with the nodes `before` seen already, the
entries `own` of the open node `node` were worked off, which brought the nodes `new` and wrote
`events`.  The nodes are finished in the order `fin`. -/
structure Wrote (stack before : List ν) (node : ν) (own : List (Item ν τ μ × ℕ))
    (new fin : List ν) (events : List (Event ν τ μ)) : Prop where
  inside : node = root ∨ node ∈ stack
  seen : node ∈ before
  fresh : ∀ n ∈ new, n ∉ before
  nodup : new.Nodup
  bodies : ∀ n ∈ new, body n ≠ none
  perm : fin.Perm new
  targets : ∀ n mark target i, (Item.reference mark target, i) ∈ doneOf body node own new n →
    ∃ t, target = some t ∧ t ∈ before ++ new ∧ t ∉ stack
  lines : ∀ n, linesOf n events = textsOf (doneOf body node own new n)
  order : ∀ n mark t i, (Item.reference mark (some t), i) ∈ doneOf body node own new n → t ≠ root →
    ∃ a b, events = a ++ b ∧ linesOf t b = [] ∧ ∀ line ∈ linesOf n a, line.1 < i
  finish : ∀ n ∈ new, ∀ t, Refers body n t → t ≠ root → t ∈ before ∨ fin.idxOf t < fin.idxOf n
  opens : ∀ mark t, Event.opened mark t ∈ events ↔
    ∃ n i, (Item.reference mark (some t), i) ∈ doneOf body node own new n
  closes : ∀ mark, Event.closed mark ∈ events → ∃ t, Event.opened mark t ∈ events

variable {body root}
variable {stack before : List ν} {node : ν} {own more : List (Item ν τ μ × ℕ)}
  {new later fin finLater : List ν} {events written : List (Event ν τ μ)}

@[simp] theorem doneOf_self : doneOf body node own new node = own := if_pos rfl

theorem doneOf_of_mem {n : ν} (hne : n ≠ node) (h : n ∈ new) :
    doneOf body node own new n = (entriesOf body n).zipIdx := by
  rw [doneOf, if_neg hne, if_pos h]

theorem doneOf_of_not_mem {n : ν} (hne : n ≠ node) (h : n ∉ new) :
    doneOf body node own new n = [] := by
  rw [doneOf, if_neg hne, if_neg h]

/-- What has been worked off after two parts. -/
theorem doneOf_append (hfresh : ∀ n ∈ later, n ∉ new) (n : ν) :
    doneOf body node (own ++ more) (new ++ later) n
      = doneOf body node own new n ++ doneOf body node more later n := by
  by_cases hn : n = node
  · subst hn
    simp
  by_cases hnew : n ∈ new
  · have hlater : n ∉ later := fun h => hfresh n h hnew
    rw [doneOf_of_mem hn (List.mem_append_left _ hnew), doneOf_of_mem hn hnew,
      doneOf_of_not_mem hn hlater, List.append_nil]
  by_cases hlater : n ∈ later
  · rw [doneOf_of_mem hn (List.mem_append_right _ hlater), doneOf_of_mem hn hlater,
      doneOf_of_not_mem hn hnew, List.nil_append]
  · rw [doneOf_of_not_mem hn (by simp [hnew, hlater]), doneOf_of_not_mem hn hnew,
      doneOf_of_not_mem hn hlater, List.nil_append]

omit [DecidableEq ν] in
theorem exists_mem_zipIdx {α : Type} {l : List α} {x : α} (h : x ∈ l) : ∃ i, (x, i) ∈ l.zipIdx := by
  obtain ⟨i, hi⟩ := List.getElem?_of_mem h
  exact ⟨i, List.mem_zipIdx_iff_getElem?.2 hi⟩

/-- Nothing was done. -/
theorem Wrote.nil (hinside : node = root ∨ node ∈ stack) (hseen : node ∈ before) :
    Wrote body root stack before node [] [] [] [] := by
  have hdone : ∀ n, doneOf body node [] [] n = [] := by
    intro n
    by_cases hn : n = node
    · rw [hn, doneOf_self]
    · exact doneOf_of_not_mem hn (List.not_mem_nil)
  refine ⟨hinside, hseen, by simp, List.nodup_nil, by simp, List.Perm.nil, ?_, ?_, ?_, by simp,
    by simp [hdone], by simp⟩
  · intro n mark target i h
    simp [hdone] at h
  · intro n
    rw [hdone, linesOf_nil, textsOf_nil]
  · intro n mark t i h
    simp [hdone] at h

/-- A line of the open node. -/
theorem Wrote.text (hinside : node = root ∨ node ∈ stack) (hseen : node ∈ before) (text : τ)
    (index : ℕ) :
    Wrote body root stack before node [(.text text, index)] [] [] [.line node index text] := by
  have hno : ∀ n mark target i, (Item.reference mark target, i)
      ∉ doneOf body node [((.text text : Item ν τ μ), index)] [] n := by
    intro n mark target i h
    by_cases hn : n = node
    · simp [hn] at h
    · rw [doneOf_of_not_mem hn List.not_mem_nil] at h
      simp at h
  refine ⟨hinside, hseen, by simp, List.nodup_nil, by simp, List.Perm.nil, ?_, ?_, ?_, by simp,
    by simp [hno], by simp⟩
  · intro n mark target i h
    exact absurd h (hno n mark target i)
  · intro n
    by_cases hn : n = node
    · subst hn
      simp
    · rw [doneOf_of_not_mem hn List.not_mem_nil, linesOf_line, if_neg (Ne.symm hn), textsOf_nil]
  · intro n mark t i h
    exact absurd h (hno n mark _ i)

/-- Two parts, one after the other: the entries of the open node have to be in order. -/
theorem Wrote.append (first : Wrote body root stack before node own new fin events)
    (second : Wrote body root stack (before ++ new) node more later finLater written)
    (hsorted : ∀ a ∈ own, ∀ b ∈ more, a.2 < b.2) :
    Wrote body root stack before node (own ++ more) (new ++ later) (fin ++ finLater)
      (events ++ written) := by
  have hfresh : ∀ n ∈ later, n ∉ new := fun n hn h =>
    second.fresh n hn (List.mem_append_right _ h)
  have hdone : ∀ n, doneOf body node (own ++ more) (new ++ later) n
      = doneOf body node own new n ++ doneOf body node more later n := doneOf_append hfresh
  refine ⟨first.inside, first.seen, ?_, ?_, ?_, first.perm.append second.perm, ?_, ?_, ?_, ?_, ?_,
    ?_⟩
  · intro n hn
    rcases List.mem_append.1 hn with hn | hn
    · exact first.fresh n hn
    · exact fun h => second.fresh n hn (List.mem_append_left _ h)
  · exact List.Nodup.append first.nodup second.nodup (fun n hn hl => hfresh n hl hn)
  · intro n hn
    rcases List.mem_append.1 hn with hn | hn
    · exact first.bodies n hn
    · exact second.bodies n hn
  · intro n mark target i h
    rw [hdone] at h
    rcases List.mem_append.1 h with h | h
    · obtain ⟨t, rfl, ht, hstack⟩ := first.targets n mark target i h
      exact ⟨t, rfl, by rw [← List.append_assoc]; exact List.mem_append_left _ ht, hstack⟩
    · obtain ⟨t, rfl, ht, hstack⟩ := second.targets n mark target i h
      exact ⟨t, rfl, by rw [← List.append_assoc]; exact ht, hstack⟩
  · intro n
    rw [hdone, linesOf_append, textsOf_append, first.lines, second.lines]
  · intro n mark t i h hroot
    rw [hdone] at h
    rcases List.mem_append.1 h with h | h
    -- the target is closed, so that nothing of it comes later
    · obtain ⟨a, b, rfl, hb, ha⟩ := first.order n mark t i h hroot
      obtain ⟨_, ht, hmem, hstack⟩ := first.targets n mark _ i h
      obtain rfl := Option.some.inj ht
      have hne : t ≠ node := by
        rintro rfl
        exact first.inside.elim hroot hstack
      have hlater : t ∉ later := fun h => second.fresh t h hmem
      refine ⟨a, b ++ written, by simp, ?_, ha⟩
      rw [linesOf_append, hb, second.lines, doneOf_of_not_mem hne hlater, textsOf_nil]
      rfl
    · obtain ⟨a, b, rfl, hb, ha⟩ := second.order n mark t i h hroot
      refine ⟨events ++ a, b, by simp, hb, ?_⟩
      intro line hline
      rw [linesOf_append, first.lines] at hline
      rcases List.mem_append.1 hline with hline | hline
      · by_cases hn : n = node
        · subst hn
          rw [doneOf_self] at h hline
          obtain ⟨entry, hentry, hindex⟩ := mem_of_mem_textsOf _ hline
          rw [← hindex]
          exact hsorted entry hentry _ h
        -- a node that is new in the second part has no lines in the first
        · have hlater : n ∈ later := by
            by_contra hnot
            rw [doneOf_of_not_mem hn hnot] at h
            simp at h
          rw [doneOf_of_not_mem hn (hfresh n hlater)] at hline
          simp at hline
      · exact ha line hline
  · intro n hn t hrefers hroot
    rcases List.mem_append.1 hn with hn | hn
    · rcases first.finish n hn t hrefers hroot with h | h
      · exact Or.inl h
      · have hfin : n ∈ fin := first.perm.mem_iff.2 hn
        have ht : t ∈ fin := by
          rw [← List.idxOf_lt_length_iff]
          exact Nat.lt_trans h (List.idxOf_lt_length_iff.2 hfin)
        rw [List.idxOf_append_of_mem hfin, List.idxOf_append_of_mem ht]
        exact Or.inr h
    · have hfin : n ∉ fin := fun h => hfresh n hn (first.perm.mem_iff.1 h)
      rw [List.idxOf_append_of_notMem hfin]
      by_cases ht : t ∈ fin
      · rw [List.idxOf_append_of_mem ht]
        exact Or.inr (Nat.lt_add_right _ (List.idxOf_lt_length_iff.2 ht))
      · rcases second.finish n hn t hrefers hroot with h | h
        · rcases List.mem_append.1 h with h | h
          · exact Or.inl h
          · exact absurd (first.perm.mem_iff.2 h) ht
        · rw [List.idxOf_append_of_notMem ht]
          exact Or.inr (by omega)
  · intro mark t
    simp only [List.mem_append, first.opens, second.opens, hdone, exists_or]
  · intro mark h
    rcases List.mem_append.1 h with h | h
    · obtain ⟨t, ht⟩ := first.closes mark h
      exact ⟨t, List.mem_append_left _ ht⟩
    · obtain ⟨t, ht⟩ := second.closes mark h
      exact ⟨t, List.mem_append_right _ ht⟩

/-- The part inside of a node, seen from the node `parent` that refers to it. -/
theorem Wrote.close {parent : ν}
    (inner : Wrote body root (stack ++ [node]) (before ++ [node]) node
      (entriesOf body node).zipIdx new fin events)
    (hbody : body node ≠ none) (hnew : node ∉ before) (hparent : parent ∈ before)
    (hinside : parent = root ∨ parent ∈ stack) :
    Wrote body root stack before parent [] (node :: new) (fin ++ [node]) events := by
  have hnode : node ∉ new := fun h => inner.fresh node h (by simp)
  have hdone : ∀ n, doneOf body parent [] (node :: new) n
      = doneOf body node (entriesOf body node).zipIdx new n := by
    intro n
    by_cases hp : n = parent
    · have hn : n ≠ node := by
        rintro rfl
        exact hnew (hp ▸ hparent)
      have hnot : n ∉ new := fun h => inner.fresh n h (List.mem_append_left _ (hp ▸ hparent))
      rw [doneOf_of_not_mem hn hnot, hp, doneOf_self]
    by_cases hn : n = node
    · rw [doneOf_of_mem hp (by simp [hn]), hn, doneOf_self]
    by_cases hmem : n ∈ new
    · rw [doneOf_of_mem hp (List.mem_cons_of_mem _ hmem), doneOf_of_mem hn hmem]
    · rw [doneOf_of_not_mem hp (by simp [hn, hmem]), doneOf_of_not_mem hn hmem]
  have hmem : before ++ node :: new = before ++ [node] ++ new := by simp
  refine ⟨hinside, hparent, ?_, List.nodup_cons.2 ⟨hnode, inner.nodup⟩, ?_, ?_, ?_, ?_, ?_, ?_, ?_,
    inner.closes⟩
  · intro n hn
    rcases List.mem_cons.1 hn with rfl | hn
    · exact hnew
    · exact fun h => inner.fresh n hn (List.mem_append_left _ h)
  · intro n hn
    rcases List.mem_cons.1 hn with rfl | hn
    · exact hbody
    · exact inner.bodies n hn
  · exact (List.perm_append_singleton node fin).trans (inner.perm.cons node)
  · intro n mark target i h
    rw [hdone] at h
    obtain ⟨t, rfl, ht, hstack⟩ := inner.targets n mark target i h
    exact ⟨t, rfl, hmem ▸ ht, fun h => hstack (List.mem_append_left _ h)⟩
  · intro n
    rw [hdone, inner.lines]
  · intro n mark t i h
    rw [hdone] at h
    exact inner.order n mark t i h
  · intro n hn t hrefers hroot
    -- the target is not the node that is being left
    have htarget : t ∈ before ++ [node] ++ new ∧ t ≠ node := by
      obtain ⟨mark, hmark⟩ := hrefers
      obtain ⟨i, hi⟩ := exists_mem_zipIdx hmark
      have hdoneOf : (Item.reference mark (some t), i)
          ∈ doneOf body node (entriesOf body node).zipIdx new n := by
        rcases List.mem_cons.1 hn with rfl | hn
        · rw [doneOf_self]
          exact hi
        · rw [doneOf_of_mem (fun heq : n = node => hnode (heq ▸ hn)) hn]
          exact hi
      obtain ⟨_, ht, hin, hstack⟩ := inner.targets n mark _ i hdoneOf
      obtain rfl := Option.some.inj ht
      exact ⟨hin, fun h => hstack (by simp [h])⟩
    have hfin : node ∉ fin := fun h => hnode (inner.perm.mem_iff.1 h)
    have hseen : t ∈ before ∨ t ∈ fin := by
      rcases List.mem_append.1 htarget.1 with h | h
      · rcases List.mem_append.1 h with h | h
        · exact Or.inl h
        · exact absurd (List.mem_singleton.1 h) htarget.2
      · exact Or.inr (inner.perm.mem_iff.2 h)
    rcases List.mem_cons.1 hn with rfl | hn
    · rcases hseen with h | h
      · exact Or.inl h
      · rw [List.idxOf_append_of_mem h, List.idxOf_append_of_notMem hfin]
        exact Or.inr (Nat.lt_add_right _ (List.idxOf_lt_length_iff.2 h))
    · rcases inner.finish n hn t hrefers hroot with h | h
      · rcases hseen with h' | h'
        · exact Or.inl h'
        · rcases List.mem_append.1 h with h | h
          · exact Or.inl h
          · exact absurd (List.mem_singleton.1 h) htarget.2
      · have hn' : n ∈ fin := inner.perm.mem_iff.2 hn
        have ht : t ∈ fin := by
          rw [← List.idxOf_lt_length_iff]
          exact Nat.lt_trans h (List.idxOf_lt_length_iff.2 hn')
        rw [List.idxOf_append_of_mem hn', List.idxOf_append_of_mem ht]
        exact Or.inr h
  · intro mark t
    simp only [inner.opens, hdone]

/-- A reference of the open node, whose target has been seen after all. -/
theorem Wrote.reference {t : ν} (inner : Wrote body root stack before node [] new fin events)
    (ht : t ∈ before ++ new) (hstack : t ∉ stack) (mark : μ) (index : ℕ) :
    Wrote body root stack before node [(.reference mark (some t), index)] new fin
      ([.opened mark t] ++ events ++ [.closed mark]) := by
  have hdone : ∀ n, n ≠ node →
      doneOf body node [(.reference mark (some t), index)] new n = doneOf body node [] new n := by
    intro n hn
    rw [doneOf, doneOf, if_neg hn, if_neg hn]
  have hlines : ∀ n, linesOf n ([.opened mark t] ++ events ++ [.closed mark]) = linesOf n events := by
    intro n
    rw [linesOf_append, linesOf_append, linesOf_opened, linesOf_closed, List.append_nil,
      List.nil_append]
  refine ⟨inner.inside, inner.seen, inner.fresh, inner.nodup, inner.bodies, inner.perm, ?_, ?_, ?_,
    inner.finish, ?_, ?_⟩
  · intro n mark' target i h
    by_cases hn : n = node
    · subst hn
      simp only [doneOf_self, List.mem_singleton, Prod.mk.injEq, Item.reference.injEq] at h
      exact ⟨t, h.1.2, ht, hstack⟩
    · rw [hdone n hn] at h
      exact inner.targets n mark' target i h
  · intro n
    rw [hlines, inner.lines]
    by_cases hn : n = node
    · subst hn
      simp
    · rw [hdone n hn]
  · intro n mark' t' i h hroot
    by_cases hn : n = node
    · refine ⟨_, [], (List.append_nil _).symm, rfl, ?_⟩
      intro line hline
      rw [hlines, inner.lines, hn, doneOf_self] at hline
      simp at hline
    · rw [hdone n hn] at h
      obtain ⟨a, b, rfl, hb, ha⟩ := inner.order n mark' t' i h hroot
      refine ⟨[.opened mark t] ++ a, b ++ [.closed mark], by simp, by simp [hb], ?_⟩
      intro line hline
      rw [linesOf_append, linesOf_opened, List.nil_append] at hline
      exact ha line hline
  · intro mark' t'
    have hmem : Event.opened mark' t' ∈ ([.opened mark t] ++ events ++ [.closed mark] :
        List (Event ν τ μ)) ↔ (mark' = mark ∧ t' = t) ∨ Event.opened mark' t' ∈ events := by
      simp
    rw [hmem, inner.opens]
    constructor
    · rintro (⟨rfl, rfl⟩ | ⟨n, i, h⟩)
      · exact ⟨node, index, by simp⟩
      · have hn : n ≠ node := by
          rintro rfl
          simp at h
        exact ⟨n, i, by rwa [hdone n hn]⟩
    · rintro ⟨n, i, h⟩
      by_cases hn : n = node
      · rw [hn, doneOf_self] at h
        simp only [List.mem_singleton, Prod.mk.injEq, Item.reference.injEq, Option.some.injEq] at h
        exact Or.inl h.1
      · rw [hdone n hn] at h
        exact Or.inr ⟨n, i, h⟩
  · intro mark' h
    have hmem : Event.closed mark' ∈ events ∨ mark' = mark := by
      simpa using h
    rcases hmem with hmem | rfl
    · obtain ⟨t', ht'⟩ := inner.closes mark' hmem
      exact ⟨t', by simp [ht']⟩
    · exact ⟨t, by simp⟩

end Wrote

/-! ### The walk writes -/

section Walk

variable {body : ν → Option (List (Item ν τ μ))} {root : ν}
variable {stack : List ν} {node : ν} {enter : ν → State ν τ μ → Except Stop (State ν τ μ)}
  {state : State ν τ μ} {fuel : ℕ}

/-- What it means for a walk from `parent` into `target` to have gone well. -/
def Entered (body : ν → Option (List (Item ν τ μ))) (root : ν) (stack : List ν) (parent target : ν)
    (state state' : State ν τ μ) : Prop :=
  ∃ new fin events, state' = ⟨state.visited ++ new, state.events ++ events⟩ ∧
    target ∈ state.visited ++ new ∧ target ∉ stack ∧
    Wrote body root stack state.visited parent [] new fin events

/-- One entry. -/
theorem item_wrote
    (henter : ∀ target state state', node ∈ state.visited → enter target state = .ok state' →
      Entered body root stack node target state state')
    (hinside : node = root ∨ node ∈ stack) {entry : Item ν τ μ × ℕ} {state' : State ν τ μ}
    (hseen : node ∈ state.visited) (h : item enter node state entry = .ok state') :
    ∃ new fin events, state' = ⟨state.visited ++ new, state.events ++ events⟩ ∧
      Wrote body root stack state.visited node [entry] new fin events := by
  rcases entry with ⟨_ | ⟨mark, _ | target⟩, index⟩
  · obtain rfl := Except.ok.inj h
    exact ⟨[], [], _, by simp [State.emit], Wrote.text hinside hseen _ index⟩
  · cases h
  · simp only [item] at h
    cases hrun : enter target (state.emit (.opened mark target)) with
    | error e => simp [hrun, bind, Except.bind] at h
    | ok next =>
        simp only [hrun, bind, Except.bind, pure, Except.pure, Except.ok.injEq] at h
        obtain ⟨new, fin, events, rfl, ht, hstack, hwrote⟩ :=
          henter target (state.emit (.opened mark target)) next hseen hrun
        refine ⟨new, fin, _, ?_, hwrote.reference ht hstack mark index⟩
        rw [← h]
        simp [State.emit]

/-- **The entries of an open node.** -/
theorem items_wrote
    (henter : ∀ target state state', node ∈ state.visited → enter target state = .ok state' →
      Entered body root stack node target state state')
    (hinside : node = root ∨ node ∈ stack) :
    ∀ (entries : List (Item ν τ μ × ℕ)) (state state' : State ν τ μ),
      entries.Pairwise (fun a b => a.2 < b.2) → node ∈ state.visited →
      items enter node entries state = .ok state' →
      ∃ new fin events, state' = ⟨state.visited ++ new, state.events ++ events⟩ ∧
        Wrote body root stack state.visited node entries new fin events := by
  intro entries
  induction entries with
  | nil =>
      intro state state' _ hseen h
      obtain rfl := Except.ok.inj h
      exact ⟨[], [], [], by simp, Wrote.nil hinside hseen⟩
  | cons entry rest ih =>
      intro state state' hsorted hseen h
      rw [items, List.foldlM_cons] at h
      cases hitem : item enter node state entry with
      | error e => simp [hitem, bind, Except.bind] at h
      | ok next =>
          simp only [hitem, bind, Except.bind] at h
          obtain ⟨new, fin, events, rfl, first⟩ := item_wrote henter hinside hseen hitem
          obtain ⟨later, finLater, written, rfl, second⟩ :=
            ih _ state' (List.pairwise_cons.1 hsorted).2 (List.mem_append_left _ hseen) h
          refine ⟨new ++ later, fin ++ finLater, events ++ written, by simp, ?_⟩
          refine first.append second ?_
          intro a ha b hb
          obtain rfl := List.mem_singleton.1 ha
          exact (List.pairwise_cons.1 hsorted).1 b hb

omit [DecidableEq ν] in
theorem pairwise_zipIdx {α : Type} (l : List α) (k : ℕ) :
    (l.zipIdx k).Pairwise (fun a b => a.2 < b.2) := by
  have h : ((l.zipIdx k).map Prod.snd).Pairwise (· < ·) := by
    rw [List.zipIdx_map_snd]
    exact List.pairwise_lt_range' 
  exact List.pairwise_map.1 h

/-- **A walk into a node.** -/
theorem visit_wrote : ∀ (fuel : ℕ) (stack : List ν) (parent target : ν) (state state' : State ν τ μ),
    (parent = root ∨ parent ∈ stack) → parent ∈ state.visited →
    visit body fuel stack target state = .ok state' →
    Entered body root stack parent target state state' := by
  intro fuel
  induction fuel with
  | zero =>
      intro stack parent target state state' _ _ h
      cases h
  | succ fuel ih =>
      intro stack parent target state state' hinside hseen h
      rw [visit] at h
      by_cases hstack : target ∈ stack
      · rw [if_pos hstack] at h
        cases h
      rw [if_neg hstack] at h
      by_cases hvisited : target ∈ state.visited
      · rw [if_pos hvisited] at h
        obtain rfl := Except.ok.inj h
        exact ⟨[], [], [], by simp, by simpa using hvisited, hstack, Wrote.nil hinside hseen⟩
      rw [if_neg hvisited] at h
      cases hbody : body target with
      | none => simp [hbody] at h
      | some entries =>
          simp only [hbody] at h
          have hentries : entriesOf body target = entries := by simp [entriesOf, hbody]
          have hopen : target = root ∨ target ∈ stack ++ [target] := Or.inr (by simp)
          obtain ⟨new, fin, events, rfl, hwrote⟩ := items_wrote
            (fun t s s' hs hrun => ih _ target t s s' hopen hs hrun) hopen _ _ state'
            (pairwise_zipIdx entries 0) (by simp) h
          refine ⟨target :: new, fin ++ [target], events, by simp, by simp, hstack, ?_⟩
          rw [← hentries] at hwrote
          exact hwrote.close (by simp [hbody]) hvisited hseen hinside

theorem expand_wrote {entries : List (Item ν τ μ)} (h : expand body fuel root entries = .ok state) :
    ∃ new fin, state.visited = root :: new ∧
      Wrote body root [] [root] root entries.zipIdx new fin state.events := by
  have hopen : root = root ∨ root ∈ ([] : List ν) := Or.inl rfl
  obtain ⟨new, fin, events, rfl, hwrote⟩ := items_wrote
    (fun t s s' hs hrun => visit_wrote fuel [] root t s s' hopen hs hrun) hopen _ _ state
    (pairwise_zipIdx entries 0) (by simp) h
  exact ⟨new, fin, rfl, by simpa using hwrote⟩

omit [DecidableEq ν] in
/-- What references preserve holds after the entries of a body. -/
theorem items_preserves
    (good : State ν τ μ → Prop) (hemit : ∀ state event, good state → good (state.emit event)) :
    ∀ (entries : List (Item ν τ μ × ℕ)),
      (∀ mark target i state state', (Item.reference mark (some target), i) ∈ entries →
        good state → enter target state = .ok state' → good state') →
      ∀ (state state' : State ν τ μ), good state → items enter node entries state = .ok state' →
        good state' := by
  intro entries
  induction entries with
  | nil =>
      intro _ state state' hgood h
      exact Except.ok.inj h ▸ hgood
  | cons entry rest ih =>
      intro henter state state' hgood h
      rw [items, List.foldlM_cons] at h
      cases hitem : item enter node state entry with
      | error e => simp [hitem, bind, Except.bind] at h
      | ok next =>
          simp only [hitem, bind, Except.bind] at h
          refine ih (fun mark t i s s' hmem => henter mark t i s s' (List.mem_cons_of_mem _ hmem))
            next state' ?_ h
          rcases entry with ⟨_ | ⟨mark, _ | target⟩, index⟩
          · exact Except.ok.inj hitem ▸ hemit _ _ hgood
          · cases hitem
          · simp only [item] at hitem
            cases hrun : enter target (state.emit (.opened mark target)) with
            | error e => simp [hrun, bind, Except.bind] at hitem
            | ok inner =>
                simp only [hrun, bind, Except.bind, pure, Except.pure, Except.ok.injEq] at hitem
                rw [← hitem]
                exact hemit _ _ (henter mark target index _ _ List.mem_cons_self
                  (hemit _ _ hgood) hrun)

/-- Only what can be reached is seen. -/
theorem visit_reachable : ∀ (fuel : ℕ) (stack : List ν) (node : ν) (state state' : State ν τ μ),
    Reachable body root node → (∀ n ∈ state.visited, Reachable body root n) →
    visit body fuel stack node state = .ok state' → ∀ n ∈ state'.visited, Reachable body root n := by
  intro fuel
  induction fuel with
  | zero =>
      intro stack node state state' _ _ h
      cases h
  | succ fuel ih =>
      intro stack node state state' hnode hgood h
      rw [visit] at h
      by_cases hstack : node ∈ stack
      · rw [if_pos hstack] at h
        cases h
      rw [if_neg hstack] at h
      by_cases hvisited : node ∈ state.visited
      · rw [if_pos hvisited] at h
        exact Except.ok.inj h ▸ hgood
      rw [if_neg hvisited] at h
      cases hbody : body node with
      | none => simp [hbody] at h
      | some entries =>
          simp only [hbody] at h
          refine items_preserves (fun s => ∀ n ∈ s.visited, Reachable body root n)
            (fun s e hs => hs) _ ?_ _ state' ?_ h
          · intro mark t i s s' hmem hs hrun
            have hrefers : Refers body node t :=
              ⟨mark, by simpa [entriesOf, hbody] using List.fst_mem_of_mem_zipIdx hmem⟩
            exact ih _ t s s' (hnode.tail hrefers) hs hrun
          · intro n hn
            rcases List.mem_append.1 hn with hn | hn
            · exact hgood n hn
            · exact List.mem_singleton.1 hn ▸ hnode

/-! ### The walk ends -/

omit [DecidableEq ν] in
theorem item_ne_outOfFuel
    (henter : ∀ target state, enter target state ≠ .error .outOfFuel) (entry : Item ν τ μ × ℕ)
    (state : State ν τ μ) : item enter node state entry ≠ .error .outOfFuel := by
  intro h
  rcases entry with ⟨_ | ⟨mark, _ | target⟩, index⟩
  · cases h
  · cases h
  · simp only [item] at h
    cases hrun : enter target (state.emit (.opened mark target)) with
    | error e =>
        simp only [hrun, bind, Except.bind, Except.error.injEq] at h
        exact henter _ _ (h ▸ hrun)
    | ok next =>
        simp [hrun, bind, Except.bind, pure, Except.pure] at h

omit [DecidableEq ν] in
theorem items_ne_outOfFuel (henter : ∀ target state, enter target state ≠ .error .outOfFuel) :
    ∀ (entries : List (Item ν τ μ × ℕ)) (state : State ν τ μ),
      items enter node entries state ≠ .error .outOfFuel := by
  intro entries
  induction entries with
  | nil =>
      intro state h
      cases h
  | cons entry rest ih =>
      intro state h
      rw [items, List.foldlM_cons] at h
      cases hitem : item enter node state entry with
      | error e =>
          simp only [hitem, bind, Except.bind, Except.error.injEq] at h
          exact item_ne_outOfFuel henter entry state (h ▸ hitem)
      | ok next =>
          simp only [hitem, bind, Except.bind] at h
          exact ih next h

/-- A node is entered at most once at a time, so that the nodes with a body bound the depth. -/
theorem visit_ne_outOfFuel {known : List ν} (hknown : ∀ node, body node ≠ none → node ∈ known) :
    ∀ (fuel : ℕ) (stack : List ν) (node : ν) (state : State ν τ μ),
      stack.Nodup → (∀ n ∈ stack, n ∈ known) → known.length < fuel + stack.length →
      visit body fuel stack node state ≠ .error .outOfFuel := by
  intro fuel
  induction fuel with
  | zero =>
      intro stack node state hnodup hsub hlength
      have hle := (List.subperm_of_subset hnodup hsub).length_le
      omega
  | succ fuel ih =>
      intro stack node state hnodup hsub hlength h
      rw [visit] at h
      by_cases hstack : node ∈ stack
      · rw [if_pos hstack] at h
        cases h
      rw [if_neg hstack] at h
      by_cases hvisited : node ∈ state.visited
      · rw [if_pos hvisited] at h
        cases h
      rw [if_neg hvisited] at h
      cases hbody : body node with
      | none => simp [hbody] at h
      | some entries =>
          simp only [hbody] at h
          refine items_ne_outOfFuel (fun t s => ih _ t s ?_ ?_ ?_) _ _ h
          · exact List.nodup_append.2 ⟨hnodup, List.nodup_singleton _, by
              rintro a ha b hb rfl
              exact hstack (List.mem_singleton.1 hb ▸ ha)⟩
          · intro n hn
            rcases List.mem_append.1 hn with hn | hn
            · exact hsub n hn
            · rw [List.mem_singleton.1 hn]
              exact hknown node (by simp [hbody])
          · simp only [List.length_append, List.length_singleton]
            omega

theorem expand_ne_outOfFuel {known : List ν} (hknown : ∀ node, body node ≠ none → node ∈ known)
    (hfuel : known.length < fuel) (entries : List (Item ν τ μ)) :
    expand body fuel root entries ≠ .error .outOfFuel :=
  items_ne_outOfFuel
    (fun t s => visit_ne_outOfFuel hknown fuel [] t s List.nodup_nil (by simp) (by simpa using hfuel))
    _ _

/-! ### Why the walk stops -/

theorem mem_visited_of_visit {n : ν} {state' : State ν τ μ}
    (hn : n ∈ state.visited) (h : visit body fuel stack node state = .ok state') :
    n ∈ state'.visited := by
  have hopen : n = n ∨ n ∈ stack := Or.inl rfl
  obtain ⟨new, _, events, rfl, _, _, _⟩ := visit_wrote fuel stack n node state state' hopen hn h
  exact List.mem_append_left _ hn

omit [DecidableEq ν] in
/-- An entry of a node at which a walk stops is a broken reference, or the walk stops inside. -/
theorem exists_of_items_fault (good : State ν τ μ → Prop)
    (hemit : ∀ state event, good state → good (state.emit event))
    (hok : ∀ target state state', good state → enter target state = .ok state' → good state') :
    ∀ (entries : List (Item ν τ μ × ℕ)) (state : State ν τ μ), good state →
      items enter node entries state = .error .fault →
      ∃ mark target i, (Item.reference mark target, i) ∈ entries ∧
        (target = none ∨
          ∃ t state', target = some t ∧ good state' ∧ enter t state' = .error .fault) := by
  intro entries
  induction entries with
  | nil =>
      intro state _ h
      cases h
  | cons entry rest ih =>
      intro state hgood h
      rw [items, List.foldlM_cons] at h
      -- the walk gets past the entry, or it stops there
      have hstep : (∃ next, good next ∧ items enter node rest next = .error .fault) ∨
          ∃ mark target i, (Item.reference mark target, i) = entry ∧ (target = none ∨
            ∃ t state', target = some t ∧ good state' ∧ enter t state' = .error .fault) := by
        rcases entry with ⟨_ | ⟨mark, _ | target⟩, index⟩
        · exact Or.inl ⟨_, hemit _ _ hgood, h⟩
        · exact Or.inr ⟨mark, none, index, rfl, Or.inl rfl⟩
        · cases hrun : enter target (state.emit (.opened mark target)) with
          | error e =>
              simp only [item, hrun, bind, Except.bind, Except.error.injEq] at h
              exact Or.inr ⟨mark, some target, index, rfl,
                Or.inr ⟨target, _, rfl, hemit _ _ hgood, h ▸ hrun⟩⟩
          | ok next =>
              simp only [item, hrun, bind, Except.bind, pure, Except.pure] at h
              exact Or.inl ⟨_, hemit _ _ (hok _ _ _ (hemit _ _ hgood) hrun), h⟩
      rcases hstep with ⟨next, hnext, hrest⟩ | ⟨mark, target, i, rfl, hwhy⟩
      · obtain ⟨mark, target, i, hmem, hwhy⟩ := ih next hnext hrest
        exact ⟨mark, target, i, List.mem_cons_of_mem _ hmem, hwhy⟩
      · exact ⟨mark, target, i, List.mem_cons_self, hwhy⟩

omit [DecidableEq ν] in
theorem mem_entriesOf {entries : List (Item ν τ μ)} (h : body node = some entries) :
    entriesOf body node = entries := by
  rw [entriesOf, h, Option.getD_some]

/-- **Inside of a node the walk stops only for a reason.**  The nodes of the stack lead to the one
that is entered, and the root, which was seen already, is not among them. -/
theorem of_visit_fault : ∀ (fuel : ℕ) (stack : List ν) (node : ν) (state : State ν τ μ),
    Reachable body root node → body node ≠ none → root ∈ state.visited → root ∉ stack →
    (node ≠ root → ∀ n ∈ stack, Relation.TransGen (RefersPast body root) n node) →
    visit body fuel stack node state = .error .fault →
    Broken body root ∨ CyclePastRoot body root := by
  intro fuel
  induction fuel with
  | zero =>
      intro stack node state _ _ _ _ _ h
      cases h
  | succ fuel ih =>
      intro stack node state hreach hsome hroot hnot hchain h
      rw [visit] at h
      by_cases hstack : node ∈ stack
      · have hne : node ≠ root := fun heq => hnot (heq ▸ hstack)
        exact Or.inr ⟨node, hreach, hchain hne node hstack⟩
      rw [if_neg hstack] at h
      by_cases hvisited : node ∈ state.visited
      · rw [if_pos hvisited] at h
        cases h
      rw [if_neg hvisited] at h
      have hne : node ≠ root := fun heq => hvisited (heq ▸ hroot)
      cases hbody : body node with
      | none => exact absurd hbody hsome
      | some entries =>
          simp only [hbody] at h
          obtain ⟨mark, target, i, hmem, hwhy⟩ := exists_of_items_fault
            (fun s => root ∈ s.visited) (fun s e hs => hs)
            (fun t s s' hs hrun => mem_visited_of_visit hs hrun) _ _
            (List.mem_append_left _ hroot) h
          have hentry : Item.reference mark target ∈ entriesOf body node := by
            rw [mem_entriesOf hbody]
            exact List.fst_mem_of_mem_zipIdx hmem
          rcases hwhy with rfl | ⟨t, next, rfl, hgood, hrun⟩
          · exact Or.inl ⟨node, hreach, mark, none, hentry, by simp⟩
          · by_cases ht : body t = none
            · exact Or.inl ⟨node, hreach, mark, some t, hentry, by simpa using ht⟩
            have hrefers : Refers body node t := ⟨mark, hentry⟩
            refine ih (stack ++ [node]) t next (hreach.tail hrefers) ht hgood ?_ ?_ hrun
            · intro hmem
              rcases List.mem_append.1 hmem with hmem | hmem
              · exact hnot hmem
              · exact hne (List.mem_singleton.1 hmem).symm
            · intro htroot n hn
              have hpast : RefersPast body root node t := ⟨hrefers, hne, htroot⟩
              rcases List.mem_append.1 hn with hn | hn
              · exact (hchain hne n hn).tail hpast
              · rw [List.mem_singleton.1 hn]
                exact Relation.TransGen.single hpast

/-! ### The expansion -/

section Root

variable {fuel : ℕ} {entries : List (Item ν τ μ)} {state : State ν τ μ}

/-- All that is reachable has been seen. -/
theorem mem_visited_of_reachable (hroot : body root = some entries)
    (h : expand body fuel root entries = .ok state) {n : ν} (hn : Reachable body root n) :
    n ∈ state.visited := by
  obtain ⟨new, fin, hvisited, hwrote⟩ := expand_wrote h
  rw [hvisited]
  induction hn with
  | refl => exact List.mem_cons_self
  | @tail p t _ hrefers ih =>
      obtain ⟨mark, hmark⟩ := hrefers
      obtain ⟨i, hi⟩ := exists_mem_zipIdx hmark
      have hdone : (Item.reference mark (some t), i) ∈ doneOf body root entries.zipIdx new p := by
        by_cases hp : p = root
        · rw [hp] at hi ⊢
          rwa [doneOf_self, ← mem_entriesOf hroot]
        · rw [doneOf_of_mem hp ((List.mem_cons.1 ih).resolve_left hp)]
          exact hi
      obtain ⟨_, ht, hmem, _⟩ := hwrote.targets p mark _ i hdone
      obtain rfl := Option.some.inj ht
      simpa using hmem

/-- What has been seen is what can be reached. -/
theorem mem_visited_iff (hroot : body root = some entries)
    (h : expand body fuel root entries = .ok state) {n : ν} :
    n ∈ state.visited ↔ Reachable body root n := by
  refine ⟨?_, mem_visited_of_reachable hroot h⟩
  refine items_preserves (fun s => ∀ n ∈ s.visited, Reachable body root n)
    (fun s e hs => hs) _ ?_ _ state ?_ h n
  · intro mark t i s s' hmem hs hrun
    have hrefers : Refers body root t :=
      ⟨mark, by simpa [entriesOf, hroot] using List.fst_mem_of_mem_zipIdx hmem⟩
    exact visit_reachable fuel [] t s s' (.single hrefers) hs hrun
  · intro n hn
    rw [List.mem_singleton.1 hn]
    exact .refl

theorem doneOf_root {new : List ν} (hroot : body root = some entries) {n : ν}
    (hn : n ∈ root :: new) : doneOf body root entries.zipIdx new n = (entriesOf body n).zipIdx := by
  by_cases hp : n = root
  · rw [hp, doneOf_self, mem_entriesOf hroot]
  · exact doneOf_of_mem hp ((List.mem_cons.1 hn).resolve_left hp)

/-- **What is referred to is written before the lines that follow.** -/
theorem expand_before (hroot : body root = some entries)
    (h : expand body fuel root entries = .ok state) {n t : ν} {mark : μ} {i : ℕ}
    (hn : Reachable body root n)
    (hmem : (Item.reference mark (some t), i) ∈ (entriesOf body n).zipIdx) (ht : t ≠ root) :
    ∃ a b, state.events = a ++ b ∧ linesOf t b = [] ∧ ∀ line ∈ linesOf n a, line.1 < i := by
  have hseen := mem_visited_of_reachable hroot h hn
  obtain ⟨new, fin, hvisited, hwrote⟩ := expand_wrote h
  rw [hvisited] at hseen
  refine hwrote.order n mark t i ?_ ht
  rw [doneOf_root hroot hseen]
  exact hmem

/-- **The lines of a node that is reachable are written once, and in order.** -/
theorem expand_lines (hroot : body root = some entries)
    (h : expand body fuel root entries = .ok state) {n : ν} (hn : Reachable body root n) :
    linesOf n state.events = textsOf (entriesOf body n).zipIdx := by
  have hseen := mem_visited_of_reachable hroot h hn
  obtain ⟨new, fin, hvisited, hwrote⟩ := expand_wrote h
  rw [hvisited] at hseen
  rw [hwrote.lines, doneOf_root hroot hseen]

theorem expand_lines_of_not_reachable (hroot : body root = some entries)
    (h : expand body fuel root entries = .ok state) {n : ν} (hn : ¬ Reachable body root n) :
    linesOf n state.events = [] := by
  rw [← mem_visited_iff hroot h] at hn
  obtain ⟨new, fin, hvisited, hwrote⟩ := expand_wrote h
  rw [hvisited, List.mem_cons, not_or] at hn
  rw [hwrote.lines, doneOf_of_not_mem hn.1 hn.2, textsOf_nil]

/-- What is written about references stands in the bodies that can be reached. -/
theorem expand_opened_iff (hroot : body root = some entries)
    (h : expand body fuel root entries = .ok state) {mark : μ} {t : ν} :
    Event.opened mark t ∈ state.events ↔
      ∃ n, Reachable body root n ∧ Item.reference mark (some t) ∈ entriesOf body n := by
  have hseen : ∀ n, n ∈ state.visited ↔ Reachable body root n := fun _ => mem_visited_iff hroot h
  obtain ⟨new, fin, hvisited, hwrote⟩ := expand_wrote h
  rw [hvisited] at hseen
  rw [hwrote.opens]
  constructor
  · rintro ⟨n, i, hmem⟩
    have hn : n ∈ root :: new := by
      by_contra hnot
      rw [List.mem_cons, not_or] at hnot
      rw [doneOf_of_not_mem hnot.1 hnot.2] at hmem
      simp at hmem
    rw [doneOf_root hroot hn] at hmem
    exact ⟨n, (hseen n).1 hn, List.fst_mem_of_mem_zipIdx hmem⟩
  · rintro ⟨n, hn, hmem⟩
    obtain ⟨i, hi⟩ := exists_mem_zipIdx hmem
    exact ⟨n, i, by rwa [doneOf_root hroot ((hseen n).2 hn)]⟩

theorem expand_closed (h : expand body fuel root entries = .ok state) {mark : μ}
    (hmem : Event.closed mark ∈ state.events) : ∃ t, Event.opened mark t ∈ state.events := by
  obtain ⟨new, fin, hvisited, hwrote⟩ := expand_wrote h
  exact hwrote.closes mark hmem

/-- A walk that goes well has found no reason to stop. -/
theorem not_broken_of_expand (hroot : body root = some entries)
    (h : expand body fuel root entries = .ok state) : ¬ Broken body root := by
  rintro ⟨n, hn, mark, target, hmark, hnone⟩
  have hseen := mem_visited_of_reachable hroot h hn
  obtain ⟨new, fin, hvisited, hwrote⟩ := expand_wrote h
  rw [hvisited] at hseen
  obtain ⟨i, hi⟩ := exists_mem_zipIdx hmark
  rw [← doneOf_root hroot hseen] at hi
  obtain ⟨t, rfl, ht, _⟩ := hwrote.targets n mark target i hi
  rcases List.mem_append.1 ht with ht | ht
  · rw [List.mem_singleton.1 ht] at hnone
    simp [hnone root rfl] at hroot
  · exact hwrote.bodies t ht (hnone t rfl)

/-- References past the root lead to nodes that were finished earlier. -/
theorem not_cyclePastRoot_of_expand (hroot : body root = some entries)
    (h : expand body fuel root entries = .ok state) : ¬ CyclePastRoot body root := by
  rintro ⟨n, hn, hcycle⟩
  obtain ⟨new, fin, hvisited, hwrote⟩ := expand_wrote h
  have hlt : ∀ t, Relation.TransGen (RefersPast body root) n t → fin.idxOf t < fin.idxOf n := by
    have hstep : ∀ p t, p ∈ new → RefersPast body root p t → fin.idxOf t < fin.idxOf p := by
      intro p t hp hpast
      rcases hwrote.finish p hp t hpast.1 hpast.2.2 with heq | hlt
      · exact absurd (List.mem_singleton.1 heq) hpast.2.2
      · exact hlt
    have hmem : ∀ p, Reachable body root p → p ≠ root → p ∈ new := by
      intro p hp hne
      have hseen := mem_visited_of_reachable hroot h hp
      rw [hvisited] at hseen
      exact (List.mem_cons.1 hseen).resolve_left hne
    intro t ht
    have hboth : Reachable body root t ∧ fin.idxOf t < fin.idxOf n := by
      induction ht with
      | single hpast => exact ⟨hn.tail hpast.1, hstep _ _ (hmem n hn hpast.2.1) hpast⟩
      | tail _ hpast ih =>
          exact ⟨ih.1.tail hpast.1, Nat.lt_trans (hstep _ _ (hmem _ ih.1 hpast.2.1) hpast) ih.2⟩
    exact hboth.2
  exact Nat.lt_irrefl _ (hlt n hcycle)

/-- **The expansion goes through exactly when nothing is missing and every cycle passes through the
root.** -/
theorem expand_ok_iff {known : List ν} (hknown : ∀ node, body node ≠ none → node ∈ known)
    (hfuel : known.length < fuel) (hroot : body root = some entries) :
    (∃ state, expand body fuel root entries = .ok state) ↔
      ¬ Broken body root ∧ ¬ CyclePastRoot body root := by
  constructor
  · rintro ⟨state, h⟩
    exact ⟨not_broken_of_expand hroot h, not_cyclePastRoot_of_expand hroot h⟩
  · rintro ⟨hbroken, hcycle⟩
    cases h : expand body fuel root entries with
    | ok state => exact ⟨state, rfl⟩
    | error why =>
        exfalso
        cases why with
        | outOfFuel => exact expand_ne_outOfFuel hknown hfuel entries h
        | fault =>
            have hreach : Reachable body root root := Relation.ReflTransGen.refl
            obtain ⟨mark, target, i, hmem, hwhy⟩ := exists_of_items_fault
              (fun s => root ∈ s.visited) (fun s e hs => hs)
              (fun t s s' hs hrun => mem_visited_of_visit hs hrun) _ _ (by simp) h
            have hentry : Item.reference mark target ∈ entriesOf body root := by
              rw [mem_entriesOf hroot]
              exact List.fst_mem_of_mem_zipIdx hmem
            rcases hwhy with rfl | ⟨t, next, rfl, hgood, hrun⟩
            · exact hbroken ⟨root, hreach, mark, none, hentry, by simp⟩
            · by_cases ht : body t = none
              · exact hbroken ⟨root, hreach, mark, some t, hentry, by simpa using ht⟩
              · exact (of_visit_fault fuel [] t next (hreach.tail ⟨mark, hentry⟩) ht hgood (by simp)
                  (by simp) hrun).elim hbroken hcycle

end Root

end Walk

/-! ### Cycles -/

section Cycles

variable {body : ν → Option (List (Item ν τ μ))} {root : ν}

omit [DecidableEq ν] in
/-- A way passes the root by or leads through it. -/
theorem refersPast_or_through (root : ν) {a b : ν} (h : Relation.TransGen (Refers body) a b) :
    Relation.TransGen (RefersPast body root) a b ∨
      (Reachable body a root ∧ Reachable body root b) := by
  have hstep : ∀ a b, Refers body a b →
      RefersPast body root a b ∨ (Reachable body a root ∧ Reachable body root b) := by
    intro a b hrefers
    by_cases ha : a = root
    · subst ha
      exact Or.inr ⟨.refl, .single hrefers⟩
    by_cases hb : b = root
    · subst hb
      exact Or.inr ⟨.single hrefers, .refl⟩
    · exact Or.inl ⟨hrefers, ha, hb⟩
  induction h with
  | single hrefers =>
      rcases hstep a _ hrefers with h | h
      · exact Or.inl (.single h)
      · exact Or.inr h
  | @tail b c hway hrefers ih =>
      rcases ih with hpast | ⟨hto, hfrom⟩
      · rcases hstep b c hrefers with h | ⟨hto, hfrom⟩
        · exact Or.inl (hpast.tail h)
        · exact Or.inr ⟨hway.to_reflTransGen.trans hto, hfrom⟩
      · exact Or.inr ⟨hto, hfrom.tail hrefers⟩

omit [DecidableEq ν] in
/-- Some node that can be reached lies on a cycle. -/
theorem cyclic_iff : (∃ n, Reachable body root n ∧ Relation.TransGen (Refers body) n n) ↔
    CyclePastRoot body root ∨ Relation.TransGen (Refers body) root root := by
  constructor
  · rintro ⟨n, hn, hcycle⟩
    rcases refersPast_or_through root hcycle with h | ⟨hto, hfrom⟩
    · exact Or.inl ⟨n, hn, h⟩
    · refine Or.inr ?_
      by_cases hroot : n = root
      · exact hroot ▸ hcycle
      · rcases hto.cases_head with heq | ⟨t, hrefers, ht⟩
        · exact absurd heq hroot
        · exact Relation.TransGen.trans_right hfrom (.head' hrefers ht)
  · rintro (⟨n, hn, hcycle⟩ | hcycle)
    · have hle : RefersPast body root ≤ Refers body := fun _ _ h => h.1
      exact ⟨n, hn, Relation.TransGen.mono hle _ _ hcycle⟩
    · exact ⟨root, .refl, hcycle⟩

end Cycles

end Expansion
