/-
The pass manager.

The passes of the compiler are registered under their names, each with the names of the passes it
depends on.  Before a run the enabled passes are taken from a hash map, in whatever order it lists
them, and sorted by a depth-first search: a pass is appended once its dependencies have been.  The
search throws when a dependency is not registered or when it comes back to a pass it is inside of.
A dependency that is registered but not enabled is passed over, with all that it depends on.

The walk is an instance of `AtomicProof/Expansion.lean`: the body of a pass refers to its
dependencies and ends with the pass itself, and a root refers to all passes.

Main definitions:

* `Pass`, `PassManager` — passes and their registry;
* `dfs`, `resolveDependencies`, `PassManager.run` — the search and the run;
* `DependsOn`, `Unregistered`, `Sorts` — what the search is for;
* `bytecodeManager` — the manager of the bytecode pipeline.

Main results:

* `resolveDependencies_exact` — **the search throws exactly when a dependency is missing or
  circular, and sorts the passes otherwise**;
* `bytecodeManager_run` — **the bytecode pipeline has one order of its passes**, however the hash
  map lists them.
-/

import AtomicProof.Expansion
import Mathlib.Data.List.Chain

set_option autoImplicit false

namespace AtomicProof

/-! ### Passes -/

/-- `Pass`: its name, its dependencies, and what `initialize`, `execute` and `finalize` do. -/
structure Pass (m : Type → Type) where
  getName : String
  getDependencies : List String
  init : m Unit
  execute : m Unit
  finalize : m Unit

/-- `PassManager`.  The hash maps are association lists; a factory is the pass it makes. -/
structure PassManager (m : Type → Type) where
  passRegistry : List (String × Pass m)
  enabledPasses : List (String × Bool)
  config : List (String × String)

namespace PassManager

variable {m : Type → Type}

def isPassRegistered (manager : PassManager m) (name : String) : Bool :=
  manager.passRegistry.any fun entry => entry.1 = name

def registerPass (manager : PassManager m) (name : String) (factory : Pass m) :
    Except String (PassManager m) :=
  if manager.isPassRegistered name then .error ("Pass '" ++ name ++ "' already registered")
  else
    .ok { manager with
      passRegistry := (name, factory) :: manager.passRegistry
      enabledPasses := (name, true) :: manager.enabledPasses.filter fun entry => entry.1 ≠ name }

def enablePass (manager : PassManager m) (name : String) (enable : Bool) : PassManager m × Bool :=
  if !manager.isPassRegistered name then (manager, false)
  else
    ({ manager with
      enabledPasses := (name, enable) :: manager.enabledPasses.filter fun entry => entry.1 ≠ name },
      true)

end PassManager

/-! ### The search -/

section Search

variable {m : Type → Type}

/-- Why sorting ends without a result: it went too deep, or something was thrown. -/
inductive SortFailure
  | outOfFuel
  | thrown (message : String)
  deriving DecidableEq, Repr

/-- The variables of `resolveDependencies`.  The entries of `passes` that have been moved out are
empty. -/
structure Sorting (m : Type → Type) where
  passes : List (Option (Pass m))
  sortedPasses : List (Pass m)
  visited : List String
  onStack : List String

/-- `passIndices`: the last pass of a name. -/
def passIndices (passes : List (Pass m)) (name : String) : Option ℕ :=
  passes.zipIdx.foldl (fun found entry => if entry.1.getName = name then some entry.2 else found) none

/-- The pass `passName` is appended, unless one of this name was. -/
def Sorting.add (s : Sorting m) (passName : String) (idx : ℕ) (pass : Pass m) : Sorting m :=
  if s.sortedPasses.any fun p => p.getName = passName then s
  else { s with sortedPasses := s.sortedPasses ++ [pass], passes := s.passes.set idx none }

/-- `dfs` of `resolveDependencies` -/
def dfs (registered : String → Bool) (indices : String → Option ℕ) :
    ℕ → String → Sorting m → Except SortFailure (Sorting m)
  | 0, _, _ => .error .outOfFuel
  | fuel + 1, passName, s =>
      if passName ∈ s.onStack then
        .error (.thrown ("Circular dependency detected involving pass: " ++ passName))
      else if passName ∈ s.visited then .ok s
      else do
        let s := { s with
          visited := s.visited ++ [passName]
          onStack := s.onStack ++ [passName] }
        let s ←
          match indices passName with
          | none => .ok s
          | some idx =>
              match s.passes[idx]? with
              | some (some pass) => do
                  let s ← pass.getDependencies.foldlM (fun s dep =>
                    if registered dep then dfs registered indices fuel dep s
                    else .error (.thrown ("Missing dependency: " ++ dep ++ " for pass: " ++
                      passName))) s
                  .ok (s.add passName idx pass)
              | _ => .ok s
        .ok { s with onStack := s.onStack.filter fun name => name ≠ passName }

/-- One round of the loop over the passes in `resolveDependencies`. -/
def visitPass (registered : String → Bool) (indices : String → Option ℕ) (fuel : ℕ)
    (s : Sorting m) (i : ℕ) : Except SortFailure (Sorting m) :=
  match s.passes[i]? with
  | some (some pass) => dfs registered indices fuel pass.getName s
  | _ => .ok s

/-- `resolveDependencies`, for `passes` in the order of `m_passes`. -/
def resolveDependencies (registry : List (String × Pass m)) (passes : List (Pass m)) :
    Except SortFailure (List (Pass m)) := do
  let s ← (List.range passes.length).foldlM
    (visitPass (fun name => registry.any fun entry => entry.1 = name) (passIndices passes)
      (passes.length + registry.length + 2))
    ⟨passes.map some, [], [], []⟩
  .ok s.sortedPasses

/-- The passes a run begins with, where the hash map of enabled passes is listed in the order
`order`. -/
def PassManager.instantiate (manager : PassManager m) (order : List (String × Bool)) :
    List (Pass m) :=
  order.filterMap fun entry => if entry.2 then manager.passRegistry.lookup entry.1 else none

def Pass.run [Monad m] (pass : Pass m) : m Unit := do
  pass.init
  pass.execute
  pass.finalize

/-- `run`, where the hash map of enabled passes is listed in the order `order`. -/
def PassManager.run [Monad m] (manager : PassManager m) (order : List (String × Bool)) :
    Except SortFailure (m Unit) := do
  let passes ← resolveDependencies manager.passRegistry (manager.instantiate order)
  .ok (passes.forM Pass.run)

end Search

/-! ### What the search is for -/

open Expansion

section Graph

variable {m : Type → Type} (registry : List (String × Pass m)) (passes : List (Pass m))

def lastNamed (name : String) : Option (Pass m) :=
  passes.reverse.find? fun pass => pass.getName = name

/-- A pass that takes part depends on a name. -/
def DependsOn (name dep : String) : Prop :=
  ∃ pass, lastNamed passes name = some pass ∧ dep ∈ pass.getDependencies

/-- A pass that takes part depends on a name that is not registered. -/
def Unregistered : Prop :=
  ∃ name dep, DependsOn passes name dep ∧ ∀ entry ∈ registry, entry.1 ≠ dep

/-- Passes that take part depend on one another in a circle. -/
def Circle : Prop := ∃ name, Relation.TransGen (DependsOn passes) name name

/-- **The passes are sorted.**  For every name the last pass of this name is there, and once, and it
stands behind all that it depends on. -/
structure Sorts (sorted : List (Pass m)) : Prop where
  nodup : (sorted.map Pass.getName).Nodup
  mem : ∀ pass, pass ∈ sorted ↔ lastNamed passes pass.getName = some pass
  before : ∀ name dep, DependsOn passes name dep → dep ∈ sorted.map Pass.getName →
    (sorted.map Pass.getName).idxOf dep < (sorted.map Pass.getName).idxOf name

def dependencyItem (dep : String) : Item (Option String) (Pass m) Unit :=
  .reference () (if registry.any fun entry => entry.1 = dep then some (some dep) else none)

/-- The graph of the passes: a pass refers to its dependencies and ends with itself, and the root
refers to all passes. -/
def passBody : Option String → Option (List (Item (Option String) (Pass m) Unit))
  | none => some (passes.map fun pass => .reference () (some (some pass.getName)))
  | some name =>
      match lastNamed passes name with
      | some pass => some (pass.getDependencies.map (dependencyItem registry) ++ [.text pass])
      | none => if registry.any fun entry => entry.1 = name then some [] else none

def passesOf (events : List (Event (Option String) (Pass m) Unit)) : List (Pass m) :=
  events.filterMap fun event =>
    match event with
    | .line _ _ pass => some pass
    | _ => none

end Graph

/-! ### Indices -/

section Indices

variable {m : Type → Type} {passes : List (Pass m)} {name : String}

theorem passIndices_concat (pass : Pass m) :
    passIndices (passes ++ [pass]) name
      = if pass.getName = name then some passes.length else passIndices passes name := by
  simp [passIndices, List.zipIdx_append, List.foldl_append]

theorem lastNamed_concat (pass : Pass m) :
    lastNamed (passes ++ [pass]) name
      = if pass.getName = name then some pass else lastNamed passes name := by
  by_cases h : pass.getName = name <;> simp [lastNamed, h]

/-- The index of a name is that of its last pass. -/
theorem getElem?_passIndices (passes : List (Pass m)) (name : String) :
    (passIndices passes name).bind (fun idx => passes[idx]?) = lastNamed passes name ∧
      ∀ idx, passIndices passes name = some idx → idx < passes.length := by
  induction passes using List.reverseRecOn with
  | nil => exact ⟨rfl, fun idx h => by cases h⟩
  | append_singleton passes pass ih =>
      rw [passIndices_concat, lastNamed_concat]
      by_cases h : pass.getName = name
      · rw [if_pos h, if_pos h]
        refine ⟨by simp, fun idx hidx => ?_⟩
        obtain rfl := Option.some.inj hidx
        simp
      · rw [if_neg h, if_neg h, ← ih.1]
        refine ⟨?_, fun idx hidx => ?_⟩
        · cases hidx : passIndices passes name with
          | none => rfl
          | some idx =>
              rw [Option.bind_some, Option.bind_some, List.getElem?_append_left (ih.2 idx hidx)]
        · have := ih.2 idx hidx
          rw [List.length_append]
          omega

theorem getName_of_lastNamed {pass : Pass m} (h : lastNamed passes name = some pass) :
    pass.getName = name := by
  simpa using List.find?_some h

theorem mem_of_lastNamed {pass : Pass m} (h : lastNamed passes name = some pass) :
    pass ∈ passes :=
  List.mem_reverse.1 (List.mem_of_find?_eq_some h)

theorem exists_lastNamed {pass : Pass m} (h : pass ∈ passes) :
    ∃ last, lastNamed passes pass.getName = some last := by
  rw [← Option.isSome_iff_exists, lastNamed, List.find?_isSome]
  exact ⟨pass, List.mem_reverse.2 h, by simp⟩

theorem passIndices_eq_none (h : lastNamed passes name = none) : passIndices passes name = none := by
  cases hidx : passIndices passes name with
  | none => rfl
  | some idx =>
      have hboth := getElem?_passIndices passes name
      have hlt := hboth.2 idx hidx
      rw [hidx, Option.bind_some, h, List.getElem?_eq_getElem hlt] at hboth
      cases hboth.1

theorem exists_passIndices {pass : Pass m} (h : lastNamed passes name = some pass) :
    ∃ idx, passIndices passes name = some idx ∧ passes[idx]? = some pass := by
  have hboth := getElem?_passIndices passes name
  rw [h] at hboth
  exact Option.bind_eq_some_iff.1 hboth.1

end Indices

/-! ### The search walks the graph of the passes -/

section Simulation

variable {m : Type → Type} {registry : List (String × Pass m)} {passes : List (Pass m)}

@[simp] theorem passesOf_append (events more : List (Event (Option String) (Pass m) Unit)) :
    passesOf (events ++ more) = passesOf events ++ passesOf more :=
  List.filterMap_append

/-- A state of the search shows a state of the walk. -/
structure Shows (passes : List (Pass m)) (stack : List String) (s : Sorting m)
    (state : State (Option String) (Pass m) Unit) : Prop where
  visited : state.visited = none :: s.visited.map some
  onStack : s.onStack = stack
  sorted : s.sortedPasses = passesOf state.events
  fresh : ∀ pass ∈ s.sortedPasses, pass.getName ∈ s.visited
  kept : ∀ (i : ℕ) (pass : Pass m), passes[i]? = some pass →
    s.passes[i]? = some (some pass) ∨ s.passes[i]? = some none ∧ pass.getName ∈ s.visited

/-- What the search does from one state to another: it visits more, and it appends only passes that
were not visited before. -/
structure Grows (s s' : Sorting m) : Prop where
  visited : ∀ name ∈ s.visited, name ∈ s'.visited
  sorted : ∀ pass ∈ s'.sortedPasses, pass ∈ s.sortedPasses ∨ pass.getName ∉ s.visited

theorem Grows.refl (s : Sorting m) : Grows s s := ⟨fun _ h => h, fun _ h => Or.inl h⟩

theorem Grows.trans {s s' s'' : Sorting m} (h : Grows s s') (h' : Grows s' s'') : Grows s s'' := by
  refine ⟨fun name hname => h'.visited name (h.visited name hname), ?_⟩
  intro pass hpass
  rcases h'.sorted pass hpass with hmem | hnot
  · exact h.sorted pass hmem
  · exact Or.inr fun hname => hnot (h.visited _ hname)

/-- An outcome of the search shows an outcome of the walk. -/
def ShowsOutcome (passes : List (Pass m)) (stack : List String) (s : Sorting m) :
    Except SortFailure (Sorting m) → Except Stop (State (Option String) (Pass m) Unit) → Prop
  | .ok s', .ok state => Shows passes stack s' state ∧ Grows s s'
  | .error .outOfFuel, .error .outOfFuel => True
  | .error (.thrown _), .error .fault => True
  | _, _ => False

/-- Steps that show one another, one after the other. -/
theorem ShowsOutcome.bind {stack stack' : List String} {s s₁ : Sorting m}
    {result : Except SortFailure (Sorting m)}
    {outcome : Except Stop (State (Option String) (Pass m) Unit)}
    {f : Sorting m → Except SortFailure (Sorting m)}
    {g : State (Option String) (Pass m) Unit → Except Stop (State (Option String) (Pass m) Unit)}
    (h : ShowsOutcome passes stack s₁ result outcome) 
    (hstep : ∀ s' state, Shows passes stack s' state → Grows s₁ s' →
      ShowsOutcome passes stack' s (f s') (g state)) :
    ShowsOutcome passes stack' s (result >>= f) (outcome >>= g) := by
  rcases result with (_ | message) | s' <;> rcases outcome with (_ | _) | state
  · trivial
  · exact h.elim
  · exact h.elim
  · exact h.elim
  · trivial
  · exact h.elim
  · exact h.elim
  · exact h.elim
  · exact hstep s' state h.1 h.2

/-- The states before an outcome may be visited less. -/
theorem ShowsOutcome.weaken {stack : List String} {s s₁ : Sorting m} (hgrows : Grows s s₁)
    {result : Except SortFailure (Sorting m)}
    {outcome : Except Stop (State (Option String) (Pass m) Unit)}
    (h : ShowsOutcome passes stack s₁ result outcome) :
    ShowsOutcome passes stack s result outcome := by
  rcases result with (_ | message) | s' <;> rcases outcome with (_ | _) | state
  · trivial
  · exact h.elim
  · exact h.elim
  · exact h.elim
  · trivial
  · exact h.elim
  · exact h.elim
  · exact h.elim
  · exact ⟨h.1, hgrows.trans h.2⟩

variable {stack : List String} {s : Sorting m} {state : State (Option String) (Pass m) Unit}

theorem Shows.emit (h : Shows passes stack s state) {event : Event (Option String) (Pass m) Unit}
    (hevent : passesOf [event] = []) : Shows passes stack s (state.emit event) := by
  refine ⟨h.visited, h.onStack, ?_, h.fresh, h.kept⟩
  rw [State.emit, passesOf_append, hevent, List.append_nil, h.sorted]

/-- One reference. -/
theorem reference_shows {node target : Option String} {index : ℕ}
    {result : Except SortFailure (Sorting m)}
    {walk : Option String → State (Option String) (Pass m) Unit →
      Except Stop (State (Option String) (Pass m) Unit)}
    (henter : ShowsOutcome passes stack s result (walk target (state.emit (.opened () target)))) :
    ShowsOutcome passes stack s result
      (item walk node state (.reference () (some target), index)) := by
  have hclose : ShowsOutcome passes stack s (result >>= .ok)
      (walk target (state.emit (.opened () target)) >>= fun next => .ok (next.emit (.closed ()))) :=
    henter.bind fun s' state' hshows hgrows => ⟨hshows.emit rfl, hgrows⟩
  have hresult : (result >>= .ok) = result := by
    cases result <;> rfl
  rw [hresult] at hclose
  exact hclose

/-- The dependencies of a pass are the references of its body. -/
theorem dependencies_show {enter : String → Sorting m → Except SortFailure (Sorting m)}
    {walk : Option String → State (Option String) (Pass m) Unit →
      Except Stop (State (Option String) (Pass m) Unit)} {node : Option String} {message : String → String}
    (henter : ∀ dep s state, (registry.any fun entry => entry.1 = dep) = true →
      Shows passes stack s state → ShowsOutcome passes stack s (enter dep s) (walk (some dep) state)) :
    ∀ (deps : List String) (k : ℕ) (s : Sorting m) (state : State (Option String) (Pass m) Unit),
      Shows passes stack s state →
      ShowsOutcome passes stack s
        (deps.foldlM (fun s dep =>
          if registry.any fun entry => entry.1 = dep then enter dep s
          else .error (.thrown (message dep))) s)
        (items walk node ((deps.map (dependencyItem registry)).zipIdx k) state) := by
  intro deps
  induction deps with
  | nil =>
      intro k s state h
      exact ⟨h, Grows.refl s⟩
  | cons dep rest ih =>
      intro k s state h
      rw [List.map_cons, List.zipIdx_cons, items, List.foldlM_cons, List.foldlM_cons]
      by_cases hdep : (registry.any fun entry => entry.1 = dep) = true
      · rw [if_pos hdep, dependencyItem, if_pos hdep]
        exact (reference_shows (henter dep s _ hdep (h.emit rfl))).bind fun s' state' h' hgrows =>
          (ih (k + 1) s' state' h').weaken hgrows
      · rw [if_neg hdep, dependencyItem, if_neg hdep]
        trivial

/-- The last pass of a name is appended. -/
theorem Shows.add {passName : String} {idx : ℕ} {pass : Pass m} (h : Shows passes stack s state)
    (hpass : passes[idx]? = some pass)
    (hname : pass.getName = passName) (hvisited : passName ∈ s.visited)
    (hnot : ∀ p ∈ s.sortedPasses, p.getName ≠ passName) (index : ℕ) :
    Shows passes stack (s.add passName idx pass) (state.emit (.line (some passName) index pass)) := by
  have hany : ¬ (s.sortedPasses.any fun p => p.getName = passName) = true := by
    rw [List.any_eq_true]
    rintro ⟨p, hp, heq⟩
    exact hnot p hp (by simpa using heq)
  rw [Sorting.add, if_neg hany]
  refine ⟨h.visited, h.onStack, ?_, ?_, ?_⟩
  · rw [State.emit, passesOf_append, h.sorted]
    rfl
  · intro p hp
    rcases List.mem_append.1 hp with hp | hp
    · exact h.fresh p hp
    · rw [List.mem_singleton.1 hp, hname]
      exact hvisited
  · intro i p hp
    dsimp only
    rcases eq_or_ne idx i with rfl | hne
    · obtain rfl := Option.some.inj (hpass.symm.trans hp)
      refine Or.inr ⟨?_, hname ▸ hvisited⟩
      rcases h.kept idx pass hp with hkept | ⟨hkept, _⟩
      · exact List.getElem?_set_self (List.getElem?_eq_some_iff.1 hkept).1
      · exact List.getElem?_set_self (List.getElem?_eq_some_iff.1 hkept).1
    · rw [List.getElem?_set_ne hne]
      exact h.kept i p hp

/-- **A pass is a node of the walk.** -/
theorem dfs_shows : ∀ (fuel : ℕ) (stack : List String) (name : String) (s : Sorting m)
    (state : State (Option String) (Pass m) Unit),
    (lastNamed passes name ≠ none ∨ (registry.any fun entry => entry.1 = name) = true) →
    Shows passes stack s state →
    ShowsOutcome passes stack s
      (dfs (fun name => registry.any fun entry => entry.1 = name) (passIndices passes) fuel name s)
      (visit (passBody registry passes) fuel (stack.map some) (some name) state) := by
  intro fuel
  induction fuel with
  | zero =>
      intro stack name s state _ _
      trivial
  | succ fuel ih =>
      intro stack name s state hname h
      rw [dfs, visit, h.onStack]
      have hstackIff : some name ∈ stack.map some ↔ name ∈ stack := by simp
      by_cases hstack : name ∈ stack
      · rw [if_pos hstack, if_pos (hstackIff.2 hstack)]
        trivial
      rw [if_neg hstack, if_neg (fun hmem => hstack (hstackIff.1 hmem)), h.visited]
      have hvisitedIff : some name ∈ none :: s.visited.map some ↔ name ∈ s.visited := by simp
      by_cases hvisited : name ∈ s.visited
      · rw [if_pos hvisited, if_pos (hvisitedIff.2 hvisited)]
        exact ⟨h, Grows.refl s⟩
      rw [if_neg hvisited, if_neg (fun hmem => hvisited (hvisitedIff.1 hmem))]
      -- the pass is entered
      generalize hs₁ : ({ s with visited := s.visited ++ [name], onStack := stack ++ [name] } :
        Sorting m) = s₁
      generalize hstate₁ : ({ state with visited := none :: s.visited.map some ++ [some name] } :
        State (Option String) (Pass m) Unit) = state₁
      have hshows : Shows passes (stack ++ [name]) s₁ state₁ := by
        subst hs₁ hstate₁
        refine ⟨by simp, rfl, h.sorted, ?_, ?_⟩
        · exact fun p hp => List.mem_append_left _ (h.fresh p hp)
        · exact fun i p hp => (h.kept i p hp).imp_right fun hboth =>
            ⟨hboth.1, List.mem_append_left _ hboth.2⟩
      have hgrows : Grows s s₁ := by
        subst hs₁
        exact ⟨fun n hn => List.mem_append_left _ hn, fun p hp => Or.inl hp⟩
      have hin : name ∈ s₁.visited := by
        subst hs₁
        simp
      -- and left again
      have hleave : ∀ s' state', Shows passes (stack ++ [name]) s' state' → Grows s s' →
          ShowsOutcome passes stack s
            (.ok { s' with onStack := s'.onStack.filter fun n => n ≠ name }) (.ok state') := by
        intro s' state' h' hgrows'
        refine ⟨⟨h'.visited, ?_, h'.sorted, h'.fresh, h'.kept⟩, ⟨hgrows'.visited, hgrows'.sorted⟩⟩
        have hfilter : stack.filter (fun n => n ≠ name) = stack := by
          rw [List.filter_eq_self]
          intro n hn
          have hne : n ≠ name := fun heq => hstack (heq ▸ hn)
          simpa using hne
        simpa [h'.onStack] using hfilter
      have hclose : ∀ (result : Except SortFailure (Sorting m))
          (outcome : Except Stop (State (Option String) (Pass m) Unit)),
          ShowsOutcome passes (stack ++ [name]) s result outcome →
          ShowsOutcome passes stack s
            (result >>= fun s' => .ok { s' with onStack := s'.onStack.filter fun n => n ≠ name })
            outcome := by
        intro result outcome hout
        have hid : (outcome >>= .ok) = outcome := by
          cases outcome <;> rfl
        rw [← hid]
        exact hout.bind hleave
      cases hlast : lastNamed passes name with
      | none =>
          have hreg : (registry.any fun entry => entry.1 = name) = true :=
            hname.resolve_left fun hne => hne hlast
          simp only [passBody, hlast, if_pos hreg, passIndices_eq_none hlast]
          exact hclose _ _ ⟨hshows, hgrows⟩
      | some pass =>
          obtain ⟨idx, hidx, hpass⟩ := exists_passIndices hlast
          have hkept : s₁.passes[idx]? = some (some pass) := by
            subst hs₁
            refine (h.kept idx pass hpass).resolve_right fun hboth => hvisited ?_
            exact getName_of_lastNamed hlast ▸ hboth.2
          simp only [passBody, hlast, hidx, hkept, List.zipIdx_append]
          rw [← bind_assoc]
          refine hclose _ _ ?_
          rw [items, List.foldlM_append]
          have hmap : stack.map some ++ [some name] = (stack ++ [name]).map some := by simp
          rw [hmap]
          refine (dependencies_show (fun dep s' state' hreg h' =>
            ih (stack ++ [name]) dep s' state' (Or.inr hreg) h') _ _ s₁ state₁ hshows).bind ?_
          intro s' state' h' hgrows'
          have hboth := hgrows.trans hgrows'
          have hnot : ∀ p ∈ s'.sortedPasses, p.getName ≠ name := by
            intro p hp heq
            rcases hgrows'.sorted p hp with hmem | hnew
            · subst hs₁
              exact hvisited (heq ▸ h.fresh p hmem)
            · exact hnew (heq ▸ hin)
          have hadd := h'.add hpass (getName_of_lastNamed hlast) (hgrows'.visited name hin) hnot
            (0 + (pass.getDependencies.map (dependencyItem registry)).length)
          refine ⟨hadd, ?_⟩
          rw [Sorting.add]
          split_ifs with hany
          · exact hboth
          · refine ⟨hboth.visited, fun p hp => ?_⟩
            rcases List.mem_append.1 hp with hp | hp
            · exact hboth.sorted p hp
            · rw [List.mem_singleton.1 hp, getName_of_lastNamed hlast]
              exact Or.inr hvisited

variable (registry) in
/-- The loop over the passes is the body of the root. -/
theorem visitPass_shows (fuel : ℕ) : ∀ (rest : List (Pass m)) (k : ℕ) (s : Sorting m)
    (state : State (Option String) (Pass m) Unit),
    (∀ i pass, rest[i]? = some pass → passes[k + i]? = some pass) → Shows passes [] s state →
    ShowsOutcome passes [] s
      ((List.range' k rest.length).foldlM
        (visitPass (fun name => registry.any fun entry => entry.1 = name) (passIndices passes)
          (fuel + 1)) s)
      (items (visit (passBody registry passes) (fuel + 1) []) none
        ((rest.map fun pass => Item.reference () (some (some pass.getName))).zipIdx k) state) := by
  intro rest
  induction rest with
  | nil =>
      intro k s state _ h
      exact ⟨h, Grows.refl s⟩
  | cons pass rest ih =>
      intro k s state hrest h
      rw [List.length_cons, List.range'_succ, List.map_cons, List.zipIdx_cons, items,
        List.foldlM_cons, List.foldlM_cons]
      have hpass : passes[k]? = some pass := hrest 0 pass rfl
      have hname : lastNamed passes pass.getName ≠ none := by
        obtain ⟨last, hlast⟩ := exists_lastNamed (List.mem_of_getElem? hpass)
        rw [hlast]
        exact Option.some_ne_none last
      have hround : ShowsOutcome passes [] s
          (visitPass (fun name => registry.any fun entry => entry.1 = name) (passIndices passes)
            (fuel + 1) s k)
          (item (visit (passBody registry passes) (fuel + 1) []) none state
            (.reference () (some (some pass.getName)), k)) := by
        refine reference_shows ?_
        have hopened : Shows passes [] s (state.emit (.opened () (some pass.getName))) := h.emit rfl
        rcases h.kept k pass hpass with hkept | ⟨hkept, hvisited⟩
        · simp only [visitPass, hkept]
          exact dfs_shows (fuel + 1) [] pass.getName s _ (Or.inl hname) hopened
        -- the pass has been moved, and the walk has seen it
        · have hmem : some pass.getName ∈ (state.emit (.opened () (some pass.getName))).visited := by
            rw [hopened.visited]
            simpa using hvisited
          simp only [visitPass, hkept]
          rw [visit, if_neg (List.not_mem_nil), if_pos hmem]
          exact ⟨hopened, Grows.refl s⟩
      refine hround.bind fun s' state' h' hgrows => (ih (k + 1) s' state' ?_ h').weaken hgrows
      intro i p hp
      have hnext := hrest (i + 1) p hp
      rwa [Nat.add_right_comm, ← Nat.add_assoc] at *

/-- **The search is the depth-first expansion of the graph of the passes.** -/
theorem resolveDependencies_simulates (registry : List (String × Pass m)) (passes : List (Pass m)) :
    match resolveDependencies registry passes,
      expand (passBody registry passes) (passes.length + registry.length + 2) none
        (passes.map fun pass => Item.reference () (some (some pass.getName))) with
    | .ok sorted, .ok state => sorted = passesOf state.events
    | .error .outOfFuel, .error .outOfFuel => True
    | .error (.thrown _), .error .fault => True
    | _, _ => False := by
  have hinitial : Shows passes [] ⟨passes.map some, [], [], []⟩ ⟨[none], []⟩ := by
    refine ⟨rfl, rfl, rfl, fun pass hpass => (List.not_mem_nil hpass).elim, fun i pass hpass => ?_⟩
    rw [List.getElem?_map, hpass]
    exact Or.inl rfl
  have hshows := visitPass_shows registry (passes.length + registry.length + 1) passes 0
    _ _ (fun i pass hpass => by rwa [Nat.zero_add]) hinitial
  rw [← List.range_eq_range'] at hshows
  unfold resolveDependencies expand
  generalize (List.range passes.length).foldlM (visitPass _ _ _) _ = result at hshows ⊢
  generalize items _ _ _ _ = outcome at hshows ⊢
  revert hshows
  rcases result with (_ | message) | s <;> rcases outcome with (_ | _) | state
  iterate 8 exact id
  · exact fun h => h.1.sorted

end Simulation

/-! ### The graph of the passes -/

section Body

variable {m : Type → Type} {registry : List (String × Pass m)} {passes : List (Pass m)}
  {name dep : String}

theorem any_registry_iff :
    (registry.any fun entry => entry.1 = name) = true ↔ ∃ entry ∈ registry, entry.1 = name := by
  simp

theorem entriesOf_pass {pass : Pass m} (h : lastNamed passes name = some pass) :
    entriesOf (passBody registry passes) (some name)
      = pass.getDependencies.map (dependencyItem registry) ++ [.text pass] := by
  simp [entriesOf, passBody, h]

theorem entriesOf_noPass (h : lastNamed passes name = none) :
    entriesOf (passBody registry passes) (some name) = [] := by
  simp only [entriesOf, passBody, h]
  split_ifs <;> rfl

theorem passBody_ne_none (h : lastNamed passes name ≠ none ∨
    (registry.any fun entry => entry.1 = name) = true) :
    passBody registry passes (some name) ≠ none := by
  cases hlast : lastNamed passes name with
  | some pass => simp [passBody, hlast]
  | none =>
      have hreg := h.resolve_left fun hne => hne hlast
      simp only [passBody, hlast, if_pos hreg]
      exact Option.some_ne_none []

theorem reference_mem_iff {target : Option (Option String)} :
    Item.reference () target ∈ entriesOf (passBody registry passes) (some name) ↔
      ∃ dep, DependsOn passes name dep ∧ dependencyItem registry dep = .reference () target := by
  cases hlast : lastNamed passes name with
  | none => simp [entriesOf_noPass hlast, DependsOn, hlast]
  | some pass => simp [entriesOf_pass hlast, DependsOn, hlast]

theorem dependencyItem_of_registered (h : (registry.any fun entry => entry.1 = dep) = true) :
    dependencyItem registry dep = .reference () (some (some dep)) := by
  rw [dependencyItem, if_pos h]

theorem dependencyItem_of_not_registered (h : ¬ (registry.any fun entry => entry.1 = dep) = true) :
    dependencyItem registry dep = .reference () none := by
  rw [dependencyItem, if_neg h]

theorem dependsOn_of_refers {target : Option String}
    (h : Refers (passBody registry passes) (some name) target) :
    ∃ dep, target = some dep ∧ DependsOn passes name dep := by
  obtain ⟨_, hmem⟩ := h
  obtain ⟨dep, hdepends, heq⟩ := reference_mem_iff.1 hmem
  refine ⟨dep, ?_, hdepends⟩
  by_cases hreg : (registry.any fun entry => entry.1 = dep) = true
  · rw [dependencyItem_of_registered hreg] at heq
    simpa using heq.symm
  · rw [dependencyItem_of_not_registered hreg] at heq
    cases heq

theorem refers_of_dependsOn (h : DependsOn passes name dep)
    (hreg : ∃ entry ∈ registry, entry.1 = dep) :
    Refers (passBody registry passes) (some name) (some dep) :=
  ⟨(), reference_mem_iff.2 ⟨dep, h, dependencyItem_of_registered (any_registry_iff.2 hreg)⟩⟩

theorem reachable_pass {pass : Pass m} (h : pass ∈ passes) :
    Reachable (passBody registry passes) none (some pass.getName) := by
  refine .single ⟨(), ?_⟩
  rw [entriesOf, passBody, Option.getD_some]
  exact List.mem_map_of_mem h

theorem reachable_of_dependsOn (h : DependsOn passes name dep) :
    Reachable (passBody registry passes) none (some name) := by
  obtain ⟨pass, hpass, _⟩ := h
  exact getName_of_lastNamed hpass ▸ reachable_pass (mem_of_lastNamed hpass)

/-- A reference without a target is a dependency that is not registered. -/
theorem broken_iff : Broken (passBody registry passes) none ↔ Unregistered registry passes := by
  constructor
  · rintro ⟨node, _, _, target, hmem, hnone⟩
    cases node with
    | none =>
        rw [entriesOf, passBody, Option.getD_some] at hmem
        obtain ⟨pass, hpass, heq⟩ := List.mem_map.1 hmem
        obtain ⟨last, hlast⟩ := exists_lastNamed hpass
        have htarget : target = some (some pass.getName) := by
          simpa using heq.symm
        refine absurd (hnone _ htarget) (passBody_ne_none (Or.inl ?_))
        rw [hlast]
        exact Option.some_ne_none last
    | some name =>
        obtain ⟨dep, hdepends, heq⟩ := reference_mem_iff.1 hmem
        refine ⟨name, dep, hdepends, fun entry hentry hdep => ?_⟩
        have hreg := any_registry_iff.2 ⟨entry, hentry, hdep⟩
        rw [dependencyItem_of_registered hreg] at heq
        have htarget : target = some (some dep) := by
          simpa using heq.symm
        exact passBody_ne_none (Or.inr hreg) (hnone _ htarget)
  · rintro ⟨name, dep, hdepends, hnot⟩
    have hreg : ¬ (registry.any fun entry => entry.1 = dep) = true := by
      rw [any_registry_iff]
      rintro ⟨entry, hentry, hdep⟩
      exact hnot entry hentry hdep
    exact ⟨some name, reachable_of_dependsOn hdepends, (), none,
      reference_mem_iff.2 ⟨dep, hdepends, dependencyItem_of_not_registered hreg⟩, by simp⟩

theorem circle_of_cyclePastRoot (h : CyclePastRoot (passBody registry passes) none) :
    Circle passes := by
  obtain ⟨node, _, hcycle⟩ := h
  have hstep : ∀ a b, RefersPast (passBody registry passes) none a b →
      DependsOn passes (a.getD "") (b.getD "") := by
    rintro (_ | a) target ⟨hrefers, hne, _⟩
    · exact absurd rfl hne
    · obtain ⟨dep, rfl, hdepends⟩ := dependsOn_of_refers hrefers
      exact hdepends
  exact ⟨node.getD "", Relation.TransGen.lift (fun n : Option String => n.getD "") hstep _ _ hcycle⟩

theorem cyclePastRoot_of_circle (hreg : ¬ Unregistered registry passes) (h : Circle passes) :
    CyclePastRoot (passBody registry passes) none := by
  have hrefers : ∀ a b, DependsOn passes a b →
      RefersPast (passBody registry passes) none (some a) (some b) := by
    intro a b hdepends
    refine ⟨refers_of_dependsOn hdepends ?_, Option.some_ne_none a, Option.some_ne_none b⟩
    by_contra hnot
    exact hreg ⟨a, b, hdepends, fun entry hentry heq => hnot ⟨entry, hentry, heq⟩⟩
  obtain ⟨name, hcycle⟩ := h
  obtain ⟨_, hfirst, _⟩ := Relation.TransGen.head'_iff.1 hcycle
  exact ⟨some name, reachable_of_dependsOn hfirst, Relation.TransGen.lift some hrefers _ _ hcycle⟩

end Body

/-! ### The sorted passes -/

section Sorted

variable {m : Type → Type} {registry : List (String × Pass m)} {passes : List (Pass m)}

/-- A pass has been written when its line has. -/
theorem mem_passesOf_iff {events : List (Event (Option String) (Pass m) Unit)} {pass : Pass m} :
    pass ∈ passesOf events ↔ ∃ node index, (index, pass) ∈ linesOf node events := by
  constructor
  · intro h
    obtain ⟨event, hevent, heq⟩ := List.mem_filterMap.1 h
    cases event with
    | line node index text =>
        obtain rfl := Option.some.inj heq
        exact ⟨node, index, List.mem_filterMap.2 ⟨_, hevent, if_pos rfl⟩⟩
    | opened mark target => cases heq
    | closed mark => cases heq
  · rintro ⟨node, index, h⟩
    obtain ⟨event, hevent, heq⟩ := List.mem_filterMap.1 h
    cases event with
    | line other i text =>
        by_cases hother : other = node
        · simp only [hother, if_true, Option.some.injEq, Prod.mk.injEq] at heq
          exact List.mem_filterMap.2 ⟨_, hevent, by rw [heq.2]⟩
        · simp [hother] at heq
    | opened mark target => cases heq
    | closed mark => cases heq

/-- When every line is written under the name of its pass, a name stands as often among the passes as
it has lines. -/
theorem count_passesOf {name : String} :
    ∀ events : List (Event (Option String) (Pass m) Unit),
      (∀ node, ∀ line ∈ linesOf node events, node = some line.2.getName) →
      ((passesOf events).map Pass.getName).count name = (linesOf (some name) events).length := by
  intro events
  induction events with
  | nil => exact fun _ => rfl
  | cons event events ih =>
      intro hlabel
      have hsplit : ∀ node, linesOf node (event :: events) = linesOf node [event] ++ linesOf node events :=
        fun node => linesOf_append [event] events node
      have hrest := ih fun node line hline =>
        hlabel node line (by rw [hsplit]; exact List.mem_append_right _ hline)
      have happend : passesOf (event :: events) = passesOf [event] ++ passesOf events :=
        passesOf_append [event] events
      rw [happend, List.map_append, List.count_append, hrest, hsplit, List.length_append]
      congr 1
      cases event with
      | line node index pass =>
          have hnode : node = some pass.getName := by
            refine hlabel node (index, pass) ?_
            rw [hsplit, linesOf_line, if_pos rfl]
            exact List.mem_append_left _ (List.mem_singleton_self _)
          rw [linesOf_line, hnode]
          by_cases hname : pass.getName = name <;> simp [passesOf, hname]
      | opened mark target => rfl
      | closed mark => rfl

variable {fuel : ℕ} {state : State (Option String) (Pass m) Unit}

/-- The lines of a name are its last pass, and none when there is no pass. -/
theorem linesOf_name (h : expand (passBody registry passes) fuel none
      (passes.map fun pass => Item.reference () (some (some pass.getName))) = .ok state)
    (name : String) :
    linesOf (some name) state.events
      = match lastNamed passes name with
        | some pass => [(pass.getDependencies.length, pass)]
        | none => [] := by
  by_cases hreach : Reachable (passBody registry passes) none (some name)
  · rw [expand_lines rfl h hreach]
    cases hlast : lastNamed passes name with
    | none => rw [entriesOf_noPass hlast]; rfl
    | some pass =>
        have hrefs : ∀ k, textsOf ((pass.getDependencies.map (dependencyItem registry)).zipIdx k)
            = [] := by
          intro k
          induction pass.getDependencies generalizing k with
          | nil => rfl
          | cons dep rest ih =>
              rw [List.map_cons, List.zipIdx_cons, ← List.singleton_append, textsOf_append, ih]
              rfl
        rw [entriesOf_pass hlast, List.zipIdx_append, textsOf_append, hrefs, List.nil_append]
        simp [textsOf_text]
  · rw [expand_lines_of_not_reachable rfl h hreach]
    cases hlast : lastNamed passes name with
    | none => rfl
    | some pass =>
        exact absurd (getName_of_lastNamed hlast ▸ reachable_pass (mem_of_lastNamed hlast)) hreach

/-- The root has no lines. -/
theorem linesOf_root (h : expand (passBody registry passes) fuel none
      (passes.map fun pass => Item.reference () (some (some pass.getName))) = .ok state) :
    linesOf none state.events = [] := by
  rw [expand_lines rfl h .refl, entriesOf, passBody, Option.getD_some]
  have hrefs : ∀ k (l : List (Pass m)), textsOf ((l.map fun pass =>
      (Item.reference () (some (some pass.getName)) : Item (Option String) (Pass m) Unit)).zipIdx k)
        = [] := by
    intro k l
    induction l generalizing k with
    | nil => rfl
    | cons pass rest ih =>
        rw [List.map_cons, List.zipIdx_cons, ← List.singleton_append, textsOf_append, ih]
        rfl
  exact hrefs 0 passes

/-- Every line is the last pass of its name. -/
theorem line_of_expand (h : expand (passBody registry passes) fuel none
      (passes.map fun pass => Item.reference () (some (some pass.getName))) = .ok state)
    {node : Option String} {line : ℕ × Pass m} (hline : line ∈ linesOf node state.events) :
    node = some line.2.getName ∧ lastNamed passes line.2.getName = some line.2 ∧
      line.1 = line.2.getDependencies.length := by
  cases node with
  | none =>
      rw [linesOf_root h] at hline
      cases hline
  | some name =>
      rw [linesOf_name h] at hline
      cases hlast : lastNamed passes name with
      | none =>
          rw [hlast] at hline
          cases hline
      | some pass =>
          rw [hlast] at hline
          obtain rfl := List.mem_singleton.1 hline
          exact ⟨by rw [getName_of_lastNamed hlast], by rw [getName_of_lastNamed hlast, hlast], rfl⟩

/-- **A walk that goes well sorts the passes.** -/
theorem sorts_of_expand (h : expand (passBody registry passes) fuel none
      (passes.map fun pass => Item.reference () (some (some pass.getName))) = .ok state)
    (hreg : ¬ Unregistered registry passes) : Sorts passes (passesOf state.events) := by
  have hlabel : ∀ node, ∀ line ∈ linesOf node state.events, node = some line.2.getName :=
    fun node line hline => (line_of_expand h hline).1
  refine ⟨?_, ?_, ?_⟩
  · rw [List.nodup_iff_count_le_one]
    intro name
    rw [count_passesOf _ hlabel, linesOf_name h]
    split <;> simp
  · intro pass
    rw [mem_passesOf_iff]
    constructor
    · rintro ⟨node, index, hline⟩
      exact (line_of_expand h hline).2.1
    · intro hlast
      refine ⟨some pass.getName, pass.getDependencies.length, ?_⟩
      rw [linesOf_name h, hlast]
      exact List.mem_singleton_self _
  · intro name dep hdepends hdep
    obtain ⟨pass, hlast, hmem⟩ := id hdepends
    have hdepReg : (registry.any fun entry => entry.1 = dep) = true := by
      rw [any_registry_iff]
      by_contra hnot
      exact hreg ⟨name, dep, hdepends, fun entry hentry heq => hnot ⟨entry, hentry, heq⟩⟩
    -- the reference to the dependency stands before the line of the pass
    obtain ⟨i, hi⟩ := List.getElem?_of_mem hmem
    have hlt : i < pass.getDependencies.length := (List.getElem?_eq_some_iff.1 hi).1
    have hentry : (Item.reference () (some (some dep)), i)
        ∈ (entriesOf (passBody registry passes) (some name)).zipIdx := by
      rw [entriesOf_pass hlast, List.mk_mem_zipIdx_iff_getElem?, List.getElem?_append_left (by simpa),
        List.getElem?_map, hi, Option.map_some, dependencyItem_of_registered hdepReg]
    obtain ⟨a, b, hevents, hb, ha⟩ := expand_before rfl h (reachable_of_dependsOn hdepends) hentry
      (Option.some_ne_none dep)
    have hmemA : dep ∈ (passesOf a).map Pass.getName := by
      rw [hevents, passesOf_append, List.map_append] at hdep
      refine (List.mem_append.1 hdep).resolve_right fun hright => ?_
      obtain ⟨p, hp, rfl⟩ := List.mem_map.1 hright
      obtain ⟨node, index, hline⟩ := mem_passesOf_iff.1 hp
      have hnode := hlabel node (index, p) (by
        rw [hevents, linesOf_append]
        exact List.mem_append_right _ hline)
      rw [hnode, hb] at hline
      cases hline
    have hnotA : name ∉ (passesOf a).map Pass.getName := by
      intro hleft
      obtain ⟨p, hp, rfl⟩ := List.mem_map.1 hleft
      obtain ⟨node, index, hline⟩ := mem_passesOf_iff.1 hp
      have hwhole : (index, p) ∈ linesOf node state.events := by
        rw [hevents, linesOf_append]
        exact List.mem_append_left _ hline
      obtain ⟨rfl, hp', hindex⟩ := line_of_expand h hwhole
      obtain rfl := Option.some.inj (hp'.symm.trans hlast)
      have hbefore : index < i := ha (index, p) hline
      dsimp only at hindex hlt
      omega
    rw [hevents, passesOf_append, List.map_append, List.idxOf_append_of_mem hmemA,
      List.idxOf_append_of_notMem hnotA]
    exact Nat.lt_add_right _ (List.idxOf_lt_length_iff.2 hmemA)

end Sorted

/-! ### The search is exact -/

section Exact

variable {m : Type → Type}

/-- The walk of the passes ends. -/
theorem expand_passBody_ne_outOfFuel (registry : List (String × Pass m)) (passes : List (Pass m)) :
    (∀ node, passBody registry passes node ≠ none →
      node ∈ none :: (passes.map fun pass => some pass.getName) ++
        registry.map fun entry => some entry.1) ∧
    (none :: (passes.map fun pass => some pass.getName) ++
        registry.map fun entry => some entry.1).length < passes.length + registry.length + 2 := by
  refine ⟨?_, by simp⟩
  intro node hnode
  cases node with
  | none => simp
  | some name =>
      cases hlast : lastNamed passes name with
      | some pass =>
          have hmem := List.mem_map_of_mem (f := fun pass : Pass m => some pass.getName)
            (mem_of_lastNamed hlast)
          rw [getName_of_lastNamed hlast] at hmem
          exact List.mem_append_left _ (List.mem_cons_of_mem _ hmem)
      | none =>
          simp only [passBody, hlast] at hnode
          split_ifs at hnode with hreg
          · obtain ⟨entry, hentry, rfl⟩ := any_registry_iff.1 hreg
            exact List.mem_append_right _ (List.mem_map_of_mem hentry)
          · exact absurd rfl hnode

theorem expand_passBody_iff (registry : List (String × Pass m)) (passes : List (Pass m)) :
    (∃ state, expand (passBody registry passes) (passes.length + registry.length + 2) none
      (passes.map fun pass => Item.reference () (some (some pass.getName))) = .ok state) ↔
      ¬ (Unregistered registry passes ∨ Circle passes) := by
  obtain ⟨hknown, hfuel⟩ := expand_passBody_ne_outOfFuel registry passes
  rw [expand_ok_iff hknown hfuel rfl, broken_iff, not_or]
  refine and_congr_right fun hreg => not_congr ?_
  exact ⟨circle_of_cyclePastRoot, cyclePastRoot_of_circle hreg⟩

/-- What the search returns, for both outcomes. -/
theorem resolveDependencies_cases (registry : List (String × Pass m)) (passes : List (Pass m)) :
    (∃ sorted, resolveDependencies registry passes = .ok sorted ∧ Sorts passes sorted ∧
      ¬ (Unregistered registry passes ∨ Circle passes)) ∨
    ∃ message, resolveDependencies registry passes = .error (.thrown message) ∧
      (Unregistered registry passes ∨ Circle passes) := by
  have hsim := resolveDependencies_simulates registry passes
  have hiff := expand_passBody_iff registry passes
  obtain ⟨hknown, hfuel⟩ := expand_passBody_ne_outOfFuel registry passes
  cases hwalk : expand (passBody registry passes) (passes.length + registry.length + 2) none
    (passes.map fun pass => Item.reference () (some (some pass.getName))) with
  | ok state =>
      have hgood := hiff.1 ⟨state, hwalk⟩
      rw [hwalk] at hsim
      cases hres : resolveDependencies registry passes with
      | ok sorted =>
          rw [hres] at hsim
          obtain rfl : sorted = passesOf state.events := hsim
          exact Or.inl ⟨_, rfl, sorts_of_expand hwalk fun h => hgood (Or.inl h), hgood⟩
      | error why =>
          rw [hres] at hsim
          cases why <;> exact hsim.elim
  | error why =>
      have hbad : Unregistered registry passes ∨ Circle passes := by
        by_contra hnot
        obtain ⟨state, hok⟩ := hiff.2 hnot
        rw [hwalk] at hok
        cases hok
      rw [hwalk] at hsim
      cases why with
      | outOfFuel => exact absurd hwalk (expand_ne_outOfFuel hknown hfuel _)
      | fault =>
          cases hres : resolveDependencies registry passes with
          | ok sorted =>
              rw [hres] at hsim
              exact hsim.elim
          | error why =>
              rw [hres] at hsim
              cases why with
              | outOfFuel => exact hsim.elim
              | thrown message => exact Or.inr ⟨message, rfl, hbad⟩

/-- **Sorting is exact.**  It ends; it throws exactly when a pass that takes part depends on a name
that is not registered, or passes depend on one another in a circle; and otherwise the passes are
sorted. -/
theorem resolveDependencies_exact (registry : List (String × Pass m)) (passes : List (Pass m)) :
    resolveDependencies registry passes ≠ .error .outOfFuel ∧
    ((∃ message, resolveDependencies registry passes = .error (.thrown message)) ↔
      Unregistered registry passes ∨ Circle passes) ∧
    ∀ sorted, resolveDependencies registry passes = .ok sorted → Sorts passes sorted := by
  rcases resolveDependencies_cases registry passes with ⟨sorted, hres, hsorts, hgood⟩ |
    ⟨message, hres, hbad⟩
  · rw [hres]
    refine ⟨by simp, ⟨?_, fun h => absurd h hgood⟩, fun other h => Except.ok.inj h ▸ hsorts⟩
    rintro ⟨message, h⟩
    cases h
  · rw [hres]
    refine ⟨by simp, ⟨fun _ => hbad, fun _ => ⟨message, rfl⟩⟩, ?_⟩
    intro sorted h
    cases h

end Exact

/-! ### A chain of passes -/

section Chain

variable {m : Type → Type} {registry : List (String × Pass m)} {passes chain : List (Pass m)}

theorem lastNamed_of_nodup (hnodup : (passes.map Pass.getName).Nodup) {pass : Pass m}
    (h : pass ∈ passes) : lastNamed passes pass.getName = some pass := by
  obtain ⟨last, hlast⟩ := exists_lastNamed h
  rw [hlast, List.inj_on_of_nodup_map hnodup (mem_of_lastNamed hlast) h (getName_of_lastNamed hlast)]

theorem pairwise_idxOf (hnodup : (passes.map Pass.getName).Nodup) :
    passes.Pairwise fun a b =>
      (passes.map Pass.getName).idxOf a.getName < (passes.map Pass.getName).idxOf b.getName := by
  rw [List.pairwise_iff_getElem]
  intro i j hi hj hij
  have hat : ∀ k (hk : k < passes.length),
      (passes.map Pass.getName).idxOf passes[k].getName = k := by
    intro k hk
    have hget := hnodup.idxOf_getElem k (by simpa using hk)
    rwa [List.getElem_map] at hget
  rw [hat i hi, hat j hj]
  exact hij

variable (registry) in
/-- **Passes that depend on one another in a row have one order**, however they are listed. -/
theorem resolveDependencies_of_chain (hnodup : (chain.map Pass.getName).Nodup)
    (hchain : chain.IsChain fun a b => a.getName ∈ b.getDependencies)
    (hdeps : ∀ pass ∈ chain, ∀ dep ∈ pass.getDependencies,
      (chain.map Pass.getName).idxOf dep < (chain.map Pass.getName).idxOf pass.getName)
    (hreg : ∀ pass ∈ chain, ∃ entry ∈ registry, entry.1 = pass.getName)
    (hperm : passes.Perm chain) : resolveDependencies registry passes = .ok chain := by
  have hnodup' : (passes.map Pass.getName).Nodup := (hperm.map _).nodup_iff.2 hnodup
  have hlast : ∀ pass, lastNamed passes pass.getName = some pass ↔ pass ∈ chain := fun pass =>
    ⟨fun h => hperm.mem_iff.1 (mem_of_lastNamed h),
      fun h => lastNamed_of_nodup hnodup' (hperm.mem_iff.2 h)⟩
  -- what is depended on stands earlier in the chain
  have hrank : ∀ name dep, DependsOn passes name dep →
      (chain.map Pass.getName).idxOf dep < (chain.map Pass.getName).idxOf name := by
    rintro name dep ⟨pass, hpass, hdep⟩
    obtain rfl := getName_of_lastNamed hpass
    exact hdeps pass ((hlast pass).1 hpass) dep hdep
  have hgood : ¬ (Unregistered registry passes ∨ Circle passes) := by
    rintro (⟨name, dep, hdepends, hnot⟩ | ⟨name, hcircle⟩)
    · have hmem : dep ∈ chain.map Pass.getName := by
        rw [← List.idxOf_lt_length_iff]
        exact Nat.lt_of_lt_of_le (hrank name dep hdepends) List.idxOf_le_length
      obtain ⟨pass, hpass, rfl⟩ := List.mem_map.1 hmem
      obtain ⟨entry, hentry, heq⟩ := hreg pass hpass
      exact hnot entry hentry heq
    · have hless : ∀ other, Relation.TransGen (DependsOn passes) name other →
          (chain.map Pass.getName).idxOf other < (chain.map Pass.getName).idxOf name := by
        intro other h
        induction h with
        | single h => exact hrank _ _ h
        | tail _ h ih => exact Nat.lt_trans (hrank _ _ h) ih
      exact Nat.lt_irrefl _ (hless name hcircle)
  rcases resolveDependencies_cases registry passes with ⟨sorted, hres, hsorts, _⟩ |
    ⟨message, _, hbad⟩
  · have hsame : sorted.Perm chain := by
      rw [List.perm_ext_iff_of_nodup hsorts.nodup.of_map hnodup.of_map]
      intro pass
      rw [hsorts.mem, hlast]
    have hlt : chain.Pairwise fun a b =>
        (sorted.map Pass.getName).idxOf a.getName < (sorted.map Pass.getName).idxOf b.getName := by
      have hnext : chain.IsChain fun a b => (sorted.map Pass.getName).idxOf a.getName <
          (sorted.map Pass.getName).idxOf b.getName := by
        refine hchain.imp_of_mem_imp ?_
        intro a b ha hb hab
        exact hsorts.before _ _ ⟨b, (hlast b).2 hb, hab⟩
          (List.mem_map_of_mem (hsame.mem_iff.2 ha))
      have htrans : Trans
          (fun a b : Pass m => (sorted.map Pass.getName).idxOf a.getName <
            (sorted.map Pass.getName).idxOf b.getName)
          (fun a b : Pass m => (sorted.map Pass.getName).idxOf a.getName <
            (sorted.map Pass.getName).idxOf b.getName)
          (fun a b : Pass m => (sorted.map Pass.getName).idxOf a.getName <
            (sorted.map Pass.getName).idxOf b.getName) := ⟨fun h h' => Nat.lt_trans h h'⟩
      exact hnext.pairwise
    rw [hres, hsame.eq_of_pairwise (fun a b _ _ h h' => absurd h' (Nat.lt_asymm h))
      (pairwise_idxOf hsorts.nodup) hlt]
  · exact absurd hbad hgood

end Chain

/-! ### The bytecode pipeline -/

section Pipeline

variable {m : Type → Type}

inductive DependType
  | LexerPass
  | ParserPass
  | ASTToBytecodePass
  | BytecodePeepholePass
  | BytecodeFinalizePass
  | ExportResultsPass
  deriving DecidableEq, Repr

def DependTypeToString : DependType → String
  | .LexerPass => "LexerPass"
  | .ParserPass => "ParserPass"
  | .ASTToBytecodePass => "ASTToBytecodePass"
  | .BytecodePeepholePass => "BytecodePeepholePass"
  | .BytecodeFinalizePass => "BytecodeFinalizePass"
  | .ExportResultsPass => "ExportResultsPass"

/-- `getDependencies` of each pass. -/
def DependType.getDependencies : DependType → List DependType
  | .LexerPass => []
  | .ParserPass => [.LexerPass]
  | .ASTToBytecodePass => [.ParserPass]
  | .BytecodePeepholePass => [.ASTToBytecodePass]
  | .BytecodeFinalizePass => [.BytecodePeepholePass]
  | .ExportResultsPass => [.BytecodeFinalizePass]

/-- The pass of a type, where `execute` says what each does.  None has an `initialize` or a
`finalize` of its own. -/
def passOf [Monad m] (execute : DependType → m Unit) (type : DependType) : Pass m :=
  ⟨DependTypeToString type, type.getDependencies.map DependTypeToString, pure (), execute type,
    pure ()⟩

/-- `REGISTER_PASS` -/
def registerType [Monad m] (execute : DependType → m Unit) (manager : PassManager m)
    (type : DependType) : Except String (PassManager m) :=
  manager.registerPass (DependTypeToString type) (passOf execute type)

/-- The passes `runBytecodePipeline` registers and enables, in this order. -/
def bytecodePasses (exportResults : Bool) : List DependType :=
  [.LexerPass, .ParserPass, .ASTToBytecodePass, .BytecodePeepholePass, .BytecodeFinalizePass] ++
    if exportResults then [.ExportResultsPass] else []

/-- The pass manager of `runBytecodePipeline`. -/
def bytecodeManager [Monad m] (execute : DependType → m Unit) (exportResults : Bool) :
    Except String (PassManager m) := do
  let manager ← (bytecodePasses exportResults).foldlM (registerType execute) ⟨[], [], []⟩
  pure ((bytecodePasses exportResults).foldl
    (fun manager type => (manager.enablePass (DependTypeToString type) true).1) manager)

theorem bytecodeManager_eq [Monad m] (execute : DependType → m Unit) (exportResults : Bool) :
    bytecodeManager execute exportResults = .ok
      ⟨(bytecodePasses exportResults).reverse.map fun type =>
          (DependTypeToString type, passOf execute type),
        (bytecodePasses exportResults).reverse.map fun type => (DependTypeToString type, true), []⟩ := by
  cases exportResults <;> rfl

theorem instantiate_bytecodePasses [Monad m] (execute : DependType → m Unit) (exportResults : Bool) :
    ((bytecodePasses exportResults).reverse.map fun type => (DependTypeToString type, true)).filterMap
        (fun entry => if entry.2 then ((bytecodePasses exportResults).reverse.map fun type =>
          (DependTypeToString type, passOf execute type)).lookup entry.1 else none)
      = (bytecodePasses exportResults).reverse.map (passOf execute) := by
  cases exportResults <;> rfl

/-- **The bytecode pipeline has one order of its passes.**  In whatever order the hash map lists the
enabled passes, a run executes lexer, parser, generation of bytecode, peephole optimisation, final
layout and, when asked for, export, one after the other. -/
theorem bytecodeManager_run [Monad m] [LawfulMonad m] (execute : DependType → m Unit)
    (exportResults : Bool) :
    ∃ manager, bytecodeManager execute exportResults = .ok manager ∧
      ∀ order, order.Perm manager.enabledPasses →
        manager.run order = .ok ((bytecodePasses exportResults).forM execute) := by
  refine ⟨_, bytecodeManager_eq execute exportResults, fun order horder => ?_⟩
  have hperm := (horder.filterMap fun entry => if entry.2 then
    ((bytecodePasses exportResults).reverse.map fun type =>
      (DependTypeToString type, passOf execute type)).lookup entry.1 else none).trans
    (List.Perm.of_eq (instantiate_bytecodePasses execute exportResults))
  have hnames : ((bytecodePasses exportResults).map (passOf execute)).map Pass.getName
      = (bytecodePasses exportResults).map DependTypeToString := by
    rw [List.map_map]
    rfl
  have hresolve := resolveDependencies_of_chain
    ((bytecodePasses exportResults).reverse.map fun type =>
      (DependTypeToString type, passOf execute type)) ?_ ?_ ?_ ?_
    (hperm.trans ((List.reverse_perm (bytecodePasses exportResults)).map _))
  · simp only [PassManager.run, PassManager.instantiate, hresolve, bind, Except.bind]
    congr 1
    rw [List.forM_eq_forM, List.forM_eq_forM, List.forM_map]
    congr 1
    funext type
    simp [Pass.run, passOf]
  · rw [hnames]
    cases exportResults <;> decide
  · rw [List.isChain_map]
    have htypes : (bytecodePasses exportResults).IsChain fun a b => a ∈ b.getDependencies := by
      cases exportResults <;> decide
    exact htypes.imp fun a b h => List.mem_map_of_mem h
  · rw [hnames]
    have htypes : ∀ type ∈ bytecodePasses exportResults, ∀ dep ∈ type.getDependencies,
        ((bytecodePasses exportResults).map DependTypeToString).idxOf (DependTypeToString dep)
          < ((bytecodePasses exportResults).map DependTypeToString).idxOf (DependTypeToString type) := by
      cases exportResults <;> decide
    intro pass hpass dep hdep
    obtain ⟨type, htype, rfl⟩ := List.mem_map.1 hpass
    obtain ⟨other, hother, rfl⟩ := List.mem_map.1 hdep
    exact htypes type htype other hother
  · intro pass hpass
    obtain ⟨type, htype, rfl⟩ := List.mem_map.1 hpass
    exact ⟨_, List.mem_map_of_mem (List.mem_reverse.2 htype), rfl⟩

theorem bytecodeManager_run_listed :
    ∃ manager : PassManager (StateM (List DependType)),
      bytecodeManager (fun type => modify (· ++ [type])) false = .ok manager ∧
        manager.run [("BytecodeFinalizePass", true), ("ParserPass", true), ("LexerPass", true),
            ("BytecodePeepholePass", true), ("ASTToBytecodePass", true)]
          = .ok ((bytecodePasses false).forM fun type => modify (· ++ [type])) := by
  obtain ⟨manager, hmanager, hrun⟩ :=
    bytecodeManager_run (m := StateM (List DependType)) (fun type => modify (· ++ [type])) false
  refine ⟨manager, hmanager, hrun _ ?_⟩
  rw [bytecodeManager_eq] at hmanager
  obtain rfl := Except.ok.inj hmanager
  decide

end Pipeline

end AtomicProof
