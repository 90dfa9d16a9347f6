/-
The table of stable values.

A value is a logical definition, an atom is a piece of physical storage.  The `StableValueTable` of
`src/src/compiler/value_lifetime_analysis.cpp` records which atoms every value has and from which
earlier values an alias or a merge was made; it is only changed through its `register…` functions,
so what they keep holds of every table.

Main definitions:

* `StableId` — identifiers that differ in type by what they identify;
* `ValueIdentity` — a value with its storage;
* `ValueMaps` — the maps of a table, and the functions that change them;
* `StableValueTable` — **the tables that can be built**: maps that are `WellFormed`.

Main results:

* `ValueMaps.WellFormed.registerValue`, `ValueMaps.WellFormed.registerAlias`,
  `ValueMaps.WellFormed.registerAtomRelation` — the functions keep the tables well formed;
* `StableValueTable.exists_root` — **every atom of a value comes from a value without sources**.
-/

import Mathlib.Data.Finset.Sort
import Mathlib.Data.Finset.Lattice.Fold
import Mathlib.Data.List.Sort
import Mathlib.Order.Basic

set_option autoImplicit false

namespace AtomicProof

/-! ### Identifiers -/

/-- `StableId`: a number with a tag for what it identifies. -/
@[ext] structure StableId (tag : Type) where
  value : ℕ

namespace StableId

variable {tag : Type}

instance : LinearOrder (StableId tag) :=
  LinearOrder.lift' StableId.value fun _ _ h => StableId.ext h

/-- `valid`: zero is no identifier. -/
def valid (id : StableId tag) : Bool := id.value != 0

/-- `StableId{}`. -/
def invalid : StableId tag := ⟨0⟩

end StableId

inductive BindingIdTag
inductive ValueIdTag
inductive AtomIdTag
inductive InlineFrameIdTag
inductive CallSiteIdTag
inductive LoopIterationIdTag
inductive BasicBlockIdTag

abbrev BindingId := StableId BindingIdTag
abbrev ValueId := StableId ValueIdTag
abbrev AtomId := StableId AtomIdTag
abbrev InlineFrameId := StableId InlineFrameIdTag
abbrev CallSiteId := StableId CallSiteIdTag
abbrev LoopIterationId := StableId LoopIterationIdTag
abbrev BasicBlockId := StableId BasicBlockIdTag

abbrev AtomSet := Finset AtomId

/-- The elements of a `std::set`, in the order in which a loop visits them. -/
def inOrder {tag : Type} (s : Finset (StableId tag)) : List (StableId tag) :=
  s.val.liftOn (fun ids => ids.insertionSort (· ≤ ·)) fun _ _ h =>
    ((List.perm_insertionSort _ _).trans (h.trans (List.perm_insertionSort _ _).symm)).eq_of_pairwise
      (fun _ _ _ _ h₁ h₂ => le_antisymm h₁ h₂) (List.pairwise_insertionSort _ _)
      (List.pairwise_insertionSort _ _)

@[simp] theorem mem_inOrder {tag : Type} {s : Finset (StableId tag)} {id : StableId tag} :
    id ∈ inOrder s ↔ id ∈ s := by
  obtain ⟨m, hm⟩ := s
  induction m using Quotient.inductionOn with
  | h ids => exact (List.perm_insertionSort _ ids).mem_iff

/-! ### Identities of values -/

/-- `AtomLeaf`: a field of an aggregate and its storage. -/
structure AtomLeaf where
  path : List ℕ
  atom : AtomId
  deriving DecidableEq

structure ValueContext where
  inlineFrame : InlineFrameId := .invalid
  callSite : CallSiteId := .invalid
  loopIteration : LoopIterationId := .invalid
  deriving DecidableEq

structure ValueIdentity where
  binding : BindingId
  value : ValueId
  atom : AtomId
  context : ValueContext := {}
  leaves : List AtomLeaf := []
  deriving DecidableEq

def ValueIdentity.atoms (identity : ValueIdentity) : AtomSet :=
  (if identity.atom.valid then {identity.atom} else ∅) ∪
    ((identity.leaves.filter (·.atom.valid)).map (·.atom)).toFinset

theorem ValueIdentity.mem_atoms {identity : ValueIdentity} {a : AtomId} :
    a ∈ identity.atoms ↔ a.valid = true ∧ (a = identity.atom ∨ ∃ l ∈ identity.leaves, l.atom = a) := by
  unfold ValueIdentity.atoms
  simp only [Finset.mem_union, List.mem_toFinset, List.mem_map, List.mem_filter]
  constructor
  · rintro (h | ⟨l, ⟨hl, hvalid⟩, rfl⟩)
    · split_ifs at h with hvalid
      · rw [Finset.mem_singleton] at h
        subst h
        exact ⟨hvalid, .inl rfl⟩
      · simp at h
    · exact ⟨hvalid, .inr ⟨l, hl, rfl⟩⟩
  · rintro ⟨hvalid, rfl | ⟨l, hl, rfl⟩⟩
    · exact .inl (by simp [hvalid])
    · exact .inr ⟨l, ⟨hl, hvalid⟩, rfl⟩

/-! ### The maps of a table -/

inductive ValueRegistryErrorCode
  | invalidBinding | invalidValue | invalidAtom | invalidLeaf | emptyAtomSet | duplicateValue
  | atomAlreadyRegistered | unknownAliasSource | emptyAtomRelation
  deriving DecidableEq, Repr

structure ValueRegistryError where
  code : ValueRegistryErrorCode
  message : String
  deriving DecidableEq, Repr

def idText (value : ℕ) : String := toString value

/-- The maps of a `StableValueTable`; a key that a map does not hold is `none` or the empty set,
as `find`, `atomsOf`, `relationSources` and `valuesForAtom` read it. -/
structure ValueMaps where
  values : ValueId → Option ValueIdentity := fun _ => none
  valueAtoms : ValueId → AtomSet := fun _ => ∅
  atomValues : AtomId → Finset ValueId := fun _ => ∅
  relationSources : ValueId → Finset ValueId := fun _ => ∅

namespace ValueMaps

def insertIdentity (maps : ValueMaps) (identity : ValueIdentity) : ValueMaps :=
  { maps with
    values := Function.update maps.values identity.value (some identity)
    valueAtoms := Function.update maps.valueAtoms identity.value identity.atoms
    atomValues := fun atom =>
      if atom ∈ identity.atoms then insert identity.value (maps.atomValues atom)
      else maps.atomValues atom }

def registerIdentity (maps : ValueMaps) (identity : ValueIdentity) (allowSharedAtoms : Bool) :
    Except ValueRegistryError ValueMaps :=
  if !identity.binding.valid then
    .error ⟨.invalidBinding, "value identity has an invalid binding id"⟩
  else if !identity.value.valid then
    .error ⟨.invalidValue, "value identity has an invalid value id"⟩
  else if (maps.values identity.value).isSome then
    .error ⟨.duplicateValue,
      "value id " ++ idText identity.value.value ++ " is already registered"⟩
  else if identity.leaves.any fun leaf => !leaf.atom.valid then
    .error ⟨.invalidLeaf, "value identity contains an invalid leaf atom"⟩
  else if identity.atoms = ∅ then
    .error ⟨if identity.leaves.isEmpty then .invalidAtom else .emptyAtomSet,
      "value identity has no valid storage atom"⟩
  else
    match (inOrder identity.atoms).find? fun atom =>
        !allowSharedAtoms && decide ((maps.atomValues atom).Nonempty) with
    | some atom =>
        .error ⟨.atomAlreadyRegistered, "atom " ++ idText atom.value ++
          " is already owned by another value; use an explicit alias or atom relation"⟩
    | none => .ok (maps.insertIdentity identity)

def registerValue (maps : ValueMaps) (identity : ValueIdentity) :
    Except ValueRegistryError ValueMaps :=
  maps.registerIdentity identity false

def registerAggregate (maps : ValueMaps) (binding : BindingId) (value : ValueId)
    (leaves : List AtomLeaf) (context : ValueContext) : Except ValueRegistryError ValueMaps :=
  maps.registerIdentity ⟨binding, value, .invalid, context, leaves⟩ false

/-- `m_relationSources.emplace`, after a successful registration. -/
def withSources (maps : ValueMaps) (value : ValueId) (sources : Finset ValueId) : ValueMaps :=
  { maps with relationSources := Function.update maps.relationSources value sources }

def registerAlias (maps : ValueMaps) (binding : BindingId) (aliasValue sourceValue : ValueId)
    (context : ValueContext) : Except ValueRegistryError ValueMaps :=
  match maps.values sourceValue with
  | none =>
      .error ⟨.unknownAliasSource,
        "alias source value " ++ idText sourceValue.value ++ " is not registered"⟩
  | some source => do
      let maps ← maps.registerIdentity
        ⟨binding, aliasValue, source.atom, context, source.leaves⟩ true
      pure (maps.withSources aliasValue {sourceValue})

/-- The order of `AtomLeaf`: by path, then by atom. -/
def leafLess (lhs rhs : AtomLeaf) : Bool :=
  if lhs.path = rhs.path then lhs.atom < rhs.atom else lhs.path < rhs.path

/-- The leaves that an atom relation takes from one source. -/
def sourceLeaves (source : ValueIdentity) (atoms : AtomSet) : List AtomLeaf :=
  if source.leaves.isEmpty then (inOrder atoms).map fun atom => ⟨[], atom⟩ else source.leaves

/-- The leaves that an atom relation takes from its sources. -/
def relationLeaves (maps : ValueMaps) (sourceValues : List ValueId) : List AtomLeaf :=
  (sourceValues.flatMap fun value =>
    match maps.values value with
    | some source => sourceLeaves source (maps.valueAtoms value)
    | none => []).insertionSort (fun a b => leafLess b a = false) |>.dedup

/-- The identity that `registerAtomRelation` registers. -/
def relationIdentity (maps : ValueMaps) (binding : BindingId) (relatedValue : ValueId)
    (sourceValues : List ValueId) (context : ValueContext) : ValueIdentity :=
  let atoms := sourceValues.toFinset.sup maps.valueAtoms
  let leaves := maps.relationLeaves sourceValues
  let scalarAtom :=
    match inOrder atoms with
    | [atom] => atom
    | _ => .invalid
  -- a scalar needs no leaf of its own
  let leaves := if atoms.card = 1 ∧ leaves = [⟨[], scalarAtom⟩] then [] else leaves
  ⟨binding, relatedValue, scalarAtom, context, leaves⟩

def registerAtomRelation (maps : ValueMaps) (binding : BindingId) (relatedValue : ValueId)
    (sourceValues : List ValueId) (context : ValueContext) :
    Except ValueRegistryError ValueMaps :=
  if sourceValues.isEmpty then
    .error ⟨.emptyAtomRelation, "an atom relation needs at least one source value"⟩
  else
    match sourceValues.find? fun value => (maps.values value).isNone with
    | some value =>
        .error ⟨.unknownAliasSource,
          "atom relation source value " ++ idText value.value ++ " is not registered"⟩
    | none => do
        let maps ← maps.registerIdentity
          (maps.relationIdentity binding relatedValue sourceValues context) true
        pure (maps.withSources relatedValue sourceValues.toFinset)

/-! ### What registration keeps -/

/-- What holds of the maps of every table: the atoms of a value are those of its identity, sources
are registered before the value they are sources of, and every atom of a value with sources is an
atom of one of them. -/
structure WellFormed (maps : ValueMaps) : Prop where
  atoms_eq : ∀ v, maps.valueAtoms v = ((maps.values v).map ValueIdentity.atoms).getD ∅
  source_registered : ∀ v, ∀ s ∈ maps.relationSources v, (maps.values s).isSome
  registered : ∀ v, (maps.relationSources v).Nonempty → (maps.values v).isSome
  atom_of_source : ∀ v, (maps.relationSources v).Nonempty → ∀ a ∈ maps.valueAtoms v,
    ∃ s ∈ maps.relationSources v, a ∈ maps.valueAtoms s
  acyclic : ∃ rank : ValueId → ℕ, ∀ v, ∀ s ∈ maps.relationSources v, rank s < rank v

theorem WellFormed.empty : WellFormed {} where
  atoms_eq _ := rfl
  source_registered _ s hs := by simp at hs
  registered _ h := by simp at h
  atom_of_source _ h := by simp at h
  acyclic := ⟨fun _ => 0, fun _ s hs => by simp at hs⟩

variable {maps maps' : ValueMaps} {identity : ValueIdentity} {binding : BindingId}
  {context : ValueContext}

theorem registerIdentity_ok {shared : Bool}
    (h : maps.registerIdentity identity shared = .ok maps') :
    maps.values identity.value = none ∧ maps' = maps.insertIdentity identity := by
  unfold registerIdentity at h
  split_ifs at h with _ _ hnew
  rw [Bool.not_eq_true, Option.isSome_eq_false_iff, Option.isNone_iff_eq_none] at hnew
  split at h
  · simp at h
  · exact ⟨hnew, (Except.ok.inj h).symm⟩

/-- A new value, with sources that are registered and have all its atoms, keeps the maps well
formed. -/
theorem WellFormed.insert (h : maps.WellFormed)
    (hnew : maps.values identity.value = none) {sources : Finset ValueId}
    (hsources : ∀ s ∈ sources, (maps.values s).isSome)
    (hatoms : sources.Nonempty → ∀ a ∈ identity.atoms, ∃ s ∈ sources, a ∈ maps.valueAtoms s) :
    ((maps.insertIdentity identity).withSources identity.value sources).WellFormed := by
  have hne : ∀ s, (maps.values s).isSome → s ≠ identity.value := by
    rintro s hs rfl
    simp [hnew] at hs
  have hvalues : ∀ s, (maps.values s).isSome →
      (Function.update maps.values identity.value (some identity) s).isSome := by
    intro s hs
    rwa [Function.update_of_ne (hne s hs)]
  have hvalueAtoms : ∀ s, (maps.values s).isSome →
      Function.update maps.valueAtoms identity.value identity.atoms s = maps.valueAtoms s :=
    fun s hs => Function.update_of_ne (hne s hs) _ _
  constructor
  · intro v
    simp only [insertIdentity, withSources]
    by_cases hv : v = identity.value
    · rw [hv, Function.update_self, Function.update_self]
      rfl
    · rw [Function.update_of_ne hv, Function.update_of_ne hv, h.atoms_eq]
  · intro v s hs
    simp only [insertIdentity, withSources] at hs ⊢
    by_cases hv : v = identity.value
    · rw [hv, Function.update_self] at hs
      exact hvalues s (hsources s hs)
    · rw [Function.update_of_ne hv] at hs
      exact hvalues s (h.source_registered v s hs)
  · intro v hs
    simp only [insertIdentity, withSources] at hs ⊢
    by_cases hv : v = identity.value
    · rw [hv, Function.update_self]
      rfl
    · rw [Function.update_of_ne hv] at hs ⊢
      exact h.registered v hs
  · intro v hs a ha
    simp only [insertIdentity, withSources] at hs ha ⊢
    by_cases hv : v = identity.value
    · rw [hv, Function.update_self] at hs ha ⊢
      obtain ⟨s, hmem, has⟩ := hatoms hs a ha
      exact ⟨s, hmem, by rwa [hvalueAtoms s (hsources s hmem)]⟩
    · rw [Function.update_of_ne hv] at hs ha ⊢
      obtain ⟨s, hmem, has⟩ := h.atom_of_source v hs a ha
      exact ⟨s, hmem, by rwa [hvalueAtoms s (h.source_registered v s hmem)]⟩
  -- the new value comes after all its sources
  · obtain ⟨rank, hrank⟩ := h.acyclic
    refine ⟨Function.update rank identity.value (sources.sup rank + 1), fun v s hs => ?_⟩
    simp only [insertIdentity, withSources] at hs
    by_cases hv : v = identity.value
    · rw [hv, Function.update_self] at hs ⊢
      rw [Function.update_of_ne (hne s (hsources s hs))]
      exact Nat.lt_succ_of_le (Finset.le_sup hs)
    · rw [Function.update_of_ne hv] at hs ⊢
      rw [Function.update_of_ne (hne s (h.source_registered v s hs))]
      exact hrank v s hs

theorem WellFormed.registerIdentity (h : maps.WellFormed) {shared : Bool}
    (hok : maps.registerIdentity identity shared = .ok maps') : maps'.WellFormed := by
  obtain ⟨hnew, rfl⟩ := registerIdentity_ok hok
  have hnone : maps.relationSources identity.value = ∅ := by
    rw [← Finset.not_nonempty_iff_eq_empty]
    intro hsome
    simpa [hnew] using h.registered _ hsome
  have hinsert : ((maps.insertIdentity identity).withSources identity.value ∅).WellFormed :=
    h.insert hnew (by simp) (by simp)
  have hsame : (maps.insertIdentity identity).withSources identity.value ∅ =
      maps.insertIdentity identity := by
    have : Function.update maps.relationSources identity.value ∅ = maps.relationSources := by
      rw [← hnone, Function.update_eq_self]
    rw [withSources, insertIdentity, this]
  rwa [hsame] at hinsert

/-- **Registering an alias keeps the maps well formed.** -/
theorem WellFormed.registerAlias (h : maps.WellFormed) {aliasValue sourceValue : ValueId}
    (hok : maps.registerAlias binding aliasValue sourceValue context = .ok maps') :
    maps'.WellFormed := by
  unfold ValueMaps.registerAlias at hok
  cases hsource : maps.values sourceValue with
  | none => simp [hsource] at hok
  | some source =>
      simp only [hsource] at hok
      cases hreg : maps.registerIdentity
          ⟨binding, aliasValue, source.atom, context, source.leaves⟩ true with
      | error err => simp [hreg, bind, Except.bind] at hok
      | ok inserted =>
          simp only [hreg, bind, Except.bind, pure, Except.pure, Except.ok.injEq] at hok
          obtain ⟨hnew, rfl⟩ := registerIdentity_ok hreg
          subst hok
          refine h.insert hnew (by simp [hsource]) fun _ a ha => ?_
          refine ⟨sourceValue, Finset.mem_singleton_self _, ?_⟩
          rw [h.atoms_eq, hsource]
          exact ha

theorem WellFormed.sourceLeaves (h : maps.WellFormed) {value : ValueId}
    {source : ValueIdentity} (hsource : maps.values value = some source) {leaf : AtomLeaf}
    (hleaf : leaf ∈ ValueMaps.sourceLeaves source (maps.valueAtoms value))
    (hvalid : leaf.atom.valid = true) : leaf.atom ∈ maps.valueAtoms value := by
  unfold ValueMaps.sourceLeaves at hleaf
  split_ifs at hleaf
  · rw [List.mem_map] at hleaf
    obtain ⟨atom, hatom, rfl⟩ := hleaf
    exact mem_inOrder.1 hatom
  · rw [h.atoms_eq, hsource]
    exact ValueIdentity.mem_atoms.2 ⟨hvalid, .inr ⟨leaf, hleaf, rfl⟩⟩

/-- Every atom of a related value is an atom of one of its sources. -/
theorem WellFormed.relationIdentity (h : maps.WellFormed)
    {relatedValue : ValueId} {sourceValues : List ValueId} {a : AtomId}
    (ha : a ∈ (maps.relationIdentity binding relatedValue sourceValues context).atoms) :
    ∃ s ∈ sourceValues.toFinset, a ∈ maps.valueAtoms s := by
  obtain ⟨hvalid, hscalar | ⟨leaf, hleaf, rfl⟩⟩ := ValueIdentity.mem_atoms.1 ha
  · simp only [ValueMaps.relationIdentity] at hscalar
    split at hscalar
    · rename_i atom hatoms
      have hmem : a ∈ inOrder (sourceValues.toFinset.sup maps.valueAtoms) := by
        rw [hatoms, hscalar]
        exact List.mem_singleton_self _
      exact Finset.mem_sup.1 (mem_inOrder.1 hmem)
    · rw [hscalar] at hvalid
      exact Bool.noConfusion hvalid
  · have hmem : leaf ∈ maps.relationLeaves sourceValues := by
      simp only [ValueMaps.relationIdentity] at hleaf
      split_ifs at hleaf
      · simp at hleaf
      · exact hleaf
    rw [relationLeaves, List.mem_dedup, List.mem_insertionSort, List.mem_flatMap] at hmem
    obtain ⟨value, hvalue, hmem⟩ := hmem
    cases hsource : maps.values value with
    | none => simp [hsource] at hmem
    | some source =>
        simp only [hsource] at hmem
        exact ⟨value, List.mem_toFinset.2 hvalue, h.sourceLeaves hsource hmem hvalid⟩

/-- **Registering an atom relation keeps the maps well formed.** -/
theorem WellFormed.registerAtomRelation (h : maps.WellFormed)
    {relatedValue : ValueId} {sourceValues : List ValueId}
    (hok : maps.registerAtomRelation binding relatedValue sourceValues context = .ok maps') :
    maps'.WellFormed := by
  unfold ValueMaps.registerAtomRelation at hok
  split_ifs at hok
  split at hok
  · simp at hok
  · rename_i hfind
    rw [List.find?_eq_none] at hfind
    cases hreg : maps.registerIdentity
        (maps.relationIdentity binding relatedValue sourceValues context) true with
    | error err => simp [hreg, bind, Except.bind] at hok
    | ok inserted =>
        simp only [hreg, bind, Except.bind, pure, Except.pure, Except.ok.injEq] at hok
        obtain ⟨hnew, rfl⟩ := registerIdentity_ok hreg
        subst hok
        refine h.insert hnew (fun s hs => ?_) fun _ a ha => h.relationIdentity ha
        have := hfind s (List.mem_toFinset.1 hs)
        simpa [Option.isSome_iff_ne_none] using this

end ValueMaps

/-! ### Tables -/

/-- `StableValueTable`: maps as the `register…` functions leave them. -/
structure StableValueTable where
  maps : ValueMaps
  wellFormed : maps.WellFormed

namespace StableValueTable

def empty : StableValueTable := ⟨{}, .empty⟩

/-- The table after a registration that keeps the maps well formed. -/
def ofRegistration (result : Except ValueRegistryError ValueMaps)
    (h : ∀ maps, result = .ok maps → maps.WellFormed) :
    Except ValueRegistryError StableValueTable :=
  match result, h with
  | .ok maps, h => .ok ⟨maps, h maps rfl⟩
  | .error err, _ => .error err

def registerValue (table : StableValueTable) (identity : ValueIdentity) :
    Except ValueRegistryError StableValueTable :=
  ofRegistration (table.maps.registerValue identity) fun _ => table.wellFormed.registerIdentity

def registerAlias (table : StableValueTable) (binding : BindingId)
    (aliasValue sourceValue : ValueId) (context : ValueContext := {}) :
    Except ValueRegistryError StableValueTable :=
  ofRegistration (table.maps.registerAlias binding aliasValue sourceValue context) fun _ =>
    table.wellFormed.registerAlias

def registerAtomRelation (table : StableValueTable) (binding : BindingId)
    (relatedValue : ValueId) (sourceValues : List ValueId) (context : ValueContext := {}) :
    Except ValueRegistryError StableValueTable :=
  ofRegistration (table.maps.registerAtomRelation binding relatedValue sourceValues context)
    fun _ => table.wellFormed.registerAtomRelation

def find (table : StableValueTable) (value : ValueId) : Option ValueIdentity :=
  table.maps.values value

def atomsOf (table : StableValueTable) (value : ValueId) : AtomSet := table.maps.valueAtoms value

def relationSources (table : StableValueTable) (value : ValueId) : Finset ValueId :=
  table.maps.relationSources value

/-- **An atom of one of several values comes from outside of them, or from one of them that has no
sources.** -/
theorem exists_root (table : StableValueTable) (values : Finset ValueId) {v : ValueId}
    {a : AtomId} (hv : v ∈ values) (ha : a ∈ table.atomsOf v) :
    (∃ w ∈ values, table.relationSources w = ∅ ∧ a ∈ table.atomsOf w) ∨
      ∃ w ∈ values, ∃ s ∈ table.relationSources w, s ∉ values ∧ a ∈ table.atomsOf s := by
  obtain ⟨rank, hrank⟩ := table.wellFormed.acyclic
  -- the sources of a value have smaller rank
  induction hn : rank v using Nat.strong_induction_on generalizing v with
  | _ n ih =>
      by_cases hroot : table.relationSources v = ∅
      · exact .inl ⟨v, hv, hroot, ha⟩
      · obtain ⟨s, hs, has⟩ := table.wellFormed.atom_of_source v
          (Finset.nonempty_iff_ne_empty.2 hroot) a ha
        by_cases hmem : s ∈ values
        · have hless := hrank v s hs
          exact ih (rank s) (by omega) hmem has rfl
        · exact .inr ⟨v, hv, s, hs, hmem, has⟩

end StableValueTable

end AtomicProof
