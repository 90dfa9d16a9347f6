/-
Runs of registrations.

The functions of the `StableValueTable` of `src/src/compiler/value_lifetime_analysis.cpp` check what they
are given and then change the maps of the table one after another.  Here they are run: a registration
is a step on the maps, which a refusal leaves as they were, and what the table promises is to hold
after every step of a run.

An atom relation takes the leaves of its sources.  A source that has leaves may have a scalar atom
besides, and that atom gets lost unless it is the only one or some source has a leaf with it.

Main definitions:

* `Registry.registerIdentity`, `Registration.perform` — the functions, as steps on the maps;
* `ValueMaps.Promises` — what the maps of a table promise;
* `ValueMaps.Consistent` — the invariant of all runs;
* `ValueMaps.KeepsScalars` — the scalar atoms of the sources of a relation are kept.

Main results:

* `Registration.perform_run` — the steps compute the functions of `ValueTable`;
* `ValueMaps.Consistent.next` — **every registration keeps the invariant**;
* `ValueMaps.Consistent.shared` — values that share an atom have a common source;
* `promises_iff` — **the promises are kept along a run exactly where every relation keeps the scalar
  atoms of its sources**.
-/

import AtomicProof.Ledger
import AtomicProof.ValueTable
import Mathlib.Logic.Relation

set_option autoImplicit false

namespace AtomicProof

/-! ### Registrations as steps -/

/-- A function on the maps of a table; the maps are there after an error, too. -/
abbrev Registry := ExceptT ValueRegistryError (StateM ValueMaps)

namespace Registry

def registerIdentity (identity : ValueIdentity) (allowSharedAtoms : Bool) : Registry Unit := do
  let maps ← get
  if !identity.binding.valid then
    throw ⟨.invalidBinding, "value identity has an invalid binding id"⟩
  if !identity.value.valid then
    throw ⟨.invalidValue, "value identity has an invalid value id"⟩
  if (maps.values identity.value).isSome then
    throw ⟨.duplicateValue,
      "value id " ++ idText identity.value.value ++ " is already registered"⟩
  if identity.leaves.any fun leaf => !leaf.atom.valid then
    throw ⟨.invalidLeaf, "value identity contains an invalid leaf atom"⟩
  let atoms := identity.atoms
  if atoms = ∅ then
    throw ⟨if identity.leaves.isEmpty then .invalidAtom else .emptyAtomSet,
      "value identity has no valid storage atom"⟩
  if !allowSharedAtoms then
    if let some atom := (inOrder atoms).find? fun atom => decide (maps.atomValues atom).Nonempty then
      throw ⟨.atomAlreadyRegistered, "atom " ++ idText atom.value ++
        " is already owned by another value; use an explicit alias or atom relation"⟩
  modify fun maps => { maps with
    values := Function.update maps.values identity.value (some identity) }
  modify fun maps => { maps with
    valueAtoms := Function.update maps.valueAtoms identity.value atoms }
  modify fun maps => { maps with
    atomValues := (inOrder atoms).foldl (fun listed atom =>
      Function.update listed atom (insert identity.value (listed atom))) maps.atomValues }

def registerValue (identity : ValueIdentity) : Registry Unit := registerIdentity identity false

def registerAggregate (binding : BindingId) (value : ValueId) (leaves : List AtomLeaf)
    (context : ValueContext) : Registry Unit :=
  registerIdentity ⟨binding, value, .invalid, context, leaves⟩ false

def registerAlias (binding : BindingId) (aliasValue sourceValue : ValueId)
    (context : ValueContext) : Registry Unit := do
  match (← get).values sourceValue with
  | none =>
      throw ⟨.unknownAliasSource,
        "alias source value " ++ idText sourceValue.value ++ " is not registered"⟩
  | some source =>
      registerIdentity ⟨binding, aliasValue, source.atom, context, source.leaves⟩ true
      modify fun maps => maps.withSources aliasValue {sourceValue}

def registerAtomRelation (binding : BindingId) (relatedValue : ValueId)
    (sourceValues : List ValueId) (context : ValueContext) : Registry Unit := do
  if sourceValues.isEmpty then
    throw ⟨.emptyAtomRelation, "an atom relation needs at least one source value"⟩
  let maps ← get
  match sourceValues.find? fun value => (maps.values value).isNone with
  | some value =>
      throw ⟨.unknownAliasSource,
        "atom relation source value " ++ idText value.value ++ " is not registered"⟩
  | none =>
      registerIdentity (maps.relationIdentity binding relatedValue sourceValues context) true
      modify fun maps => maps.withSources relatedValue sourceValues.toFinset

/-! ### The steps compute the functions of the table -/

/-- What is left of the maps by a function that gives new maps or an error. -/
def outcome (maps : ValueMaps) :
    Except ValueRegistryError ValueMaps → Except ValueRegistryError Unit × ValueMaps
  | .ok maps' => (.ok (), maps')
  | .error err => (.error err, maps)

/-- The loop over the atoms of a new value lists it under each of them. -/
theorem foldl_listed (value : ValueId) (atoms : List AtomId) (listed : AtomId → Finset ValueId) :
    atoms.foldl (fun listed atom =>
        Function.update listed atom (insert value (listed atom))) listed =
      fun atom => if atom ∈ atoms then insert value (listed atom) else listed atom := by
  induction atoms generalizing listed with
  | nil => rfl
  | cons first atoms ih =>
      rw [List.foldl_cons, ih]
      funext atom
      by_cases hfirst : atom = first
      · subst hfirst
        simp
      · simp [hfirst]

theorem get_bind_run (maps : ValueMaps) (f : ValueMaps → Registry Unit) :
    (get >>= f).run maps = (f maps).run maps := rfl

/-- The sources are recorded where the registration succeeds. -/
theorem bind_withSources_run {maps : ValueMaps} {registration : Registry Unit}
    {result : Except ValueRegistryError ValueMaps}
    (h : registration.run maps = outcome maps result) (value : ValueId)
    (sources : Finset ValueId) :
    (registration >>= fun _ => modify fun maps => maps.withSources value sources).run maps =
      outcome maps (do
        let maps ← result
        pure (maps.withSources value sources)) := by
  have hbind : ∀ f : Unit → Registry Unit, (registration >>= f).run maps =
      (ExceptT.bindCont f (registration.run maps).1 : StateM ValueMaps _) (registration.run maps).2 :=
    fun _ => rfl
  rw [hbind, h]
  cases result with
  | error err => rfl
  | ok maps' => rfl

theorem registerIdentity_run (maps : ValueMaps) (identity : ValueIdentity) (shared : Bool) :
    (registerIdentity identity shared).run maps =
      outcome maps (maps.registerIdentity identity shared) := by
  unfold registerIdentity ValueMaps.registerIdentity
  rw [get_bind_run]
  by_cases hbinding : (!identity.binding.valid) = true
  · rw [if_pos hbinding, if_pos hbinding]
    rfl
  rw [if_neg hbinding, if_neg hbinding]
  by_cases hvalue : (!identity.value.valid) = true
  · rw [if_pos hvalue, if_pos hvalue]
    rfl
  rw [if_neg hvalue, if_neg hvalue]
  by_cases hnew : (maps.values identity.value).isSome = true
  · rw [if_pos hnew, if_pos hnew]
    rfl
  rw [if_neg hnew, if_neg hnew]
  by_cases hleaf : (identity.leaves.any fun leaf => !leaf.atom.valid) = true
  · rw [if_pos hleaf, if_pos hleaf]
    rfl
  rw [if_neg hleaf, if_neg hleaf]
  by_cases hatoms : identity.atoms = ∅
  · rw [if_pos hatoms, if_pos hatoms]
    rfl
  rw [if_neg hatoms, if_neg hatoms]
  -- behind the checks the maps change one after another
  have hchange : maps.insertIdentity identity = { maps with
      values := Function.update maps.values identity.value (some identity)
      valueAtoms := Function.update maps.valueAtoms identity.value identity.atoms
      atomValues := (inOrder identity.atoms).foldl (fun listed atom =>
        Function.update listed atom (insert identity.value (listed atom))) maps.atomValues } := by
    rw [foldl_listed]
    simp only [mem_inOrder]
    rfl
  cases shared with
  | true =>
      have hfind : (inOrder identity.atoms).find? (fun atom =>
          !true && decide (maps.atomValues atom).Nonempty) = none := by
        rw [List.find?_eq_none]
        intro atom hatom h
        cases h
      rw [hfind, hchange]
      rfl
  | false =>
      simp only [Bool.not_false, Bool.true_and]
      cases (inOrder identity.atoms).find? fun atom => decide (maps.atomValues atom).Nonempty with
      | none =>
          rw [hchange]
          rfl
      | some atom => rfl

theorem registerAlias_run (maps : ValueMaps) (binding : BindingId)
    (aliasValue sourceValue : ValueId) (context : ValueContext) :
    (registerAlias binding aliasValue sourceValue context).run maps =
      outcome maps (maps.registerAlias binding aliasValue sourceValue context) := by
  unfold registerAlias ValueMaps.registerAlias
  rw [get_bind_run]
  cases maps.values sourceValue with
  | none => rfl
  | some source =>
      exact bind_withSources_run (registerIdentity_run maps _ true) aliasValue {sourceValue}

theorem registerAtomRelation_run (maps : ValueMaps) (binding : BindingId)
    (relatedValue : ValueId) (sourceValues : List ValueId) (context : ValueContext) :
    (registerAtomRelation binding relatedValue sourceValues context).run maps =
      outcome maps (maps.registerAtomRelation binding relatedValue sourceValues context) := by
  unfold registerAtomRelation ValueMaps.registerAtomRelation
  by_cases hempty : sourceValues.isEmpty = true
  · rw [if_pos hempty, if_pos hempty]
    rfl
  rw [if_neg hempty, if_neg hempty, get_bind_run]
  cases sourceValues.find? fun value => (maps.values value).isNone with
  | some value => rfl
  | none =>
      exact bind_withSources_run (registerIdentity_run maps _ true) relatedValue
        sourceValues.toFinset

end Registry

/-! ### What a registration checks and does -/

/-- A leaf of a value that has leaves, or the scalar of one that has none. -/
def ValueIdentity.Offers (identity : ValueIdentity) (a : AtomId) : Prop :=
  (identity.leaves = [] ∧ identity.atom = a) ∨ ∃ leaf ∈ identity.leaves, leaf.atom = a

namespace ValueMaps

/-- The checks of `registerIdentity`. -/
structure Accepts (maps : ValueMaps) (identity : ValueIdentity) (allowSharedAtoms : Bool) : Prop where
  binding : identity.binding.valid = true
  value : identity.value.valid = true
  new : maps.values identity.value = none
  leaves : ∀ leaf ∈ identity.leaves, leaf.atom.valid = true
  atoms : identity.atoms.Nonempty
  fresh : allowSharedAtoms = false → ∀ a ∈ identity.atoms, maps.atomValues a = ∅

theorem registerIdentity_eq_ok {maps maps' : ValueMaps} {identity : ValueIdentity} {shared : Bool} :
    maps.registerIdentity identity shared = .ok maps' ↔
      maps.Accepts identity shared ∧ maps' = maps.insertIdentity identity := by
  unfold registerIdentity
  constructor
  · intro h
    split_ifs at h with hbinding hvalue hnew hleaf hatoms
    split at h
    · cases h
    · rename_i hfind
      rw [List.find?_eq_none] at hfind
      refine ⟨⟨by simpa using hbinding, by simpa using hvalue, by simpa using hnew, ?_,
        Finset.nonempty_iff_ne_empty.2 hatoms, ?_⟩, (Except.ok.inj h).symm⟩
      · simpa using hleaf
      · rintro rfl a ha
        simpa using hfind a (mem_inOrder.2 ha)
  · rintro ⟨⟨hbinding, hvalue, hnew, hleaf, hatoms, hfresh⟩, rfl⟩
    have hfind : (inOrder identity.atoms).find? (fun atom =>
        !shared && decide (maps.atomValues atom).Nonempty) = none := by
      rw [List.find?_eq_none]
      intro atom hatom
      cases shared with
      | true => simp
      | false => simp [hfresh rfl atom (mem_inOrder.1 hatom)]
    have hleaf' : ¬ (identity.leaves.any fun leaf => !leaf.atom.valid) = true := by
      simpa using hleaf
    rw [if_neg (by simp [hbinding]), if_neg (by simp [hvalue]), if_neg (by simp [hnew]),
      if_neg hleaf', if_neg hatoms.ne_empty, hfind]

def Source (maps : ValueMaps) (source value : ValueId) : Prop := source ∈ maps.relationSources value

/-- **The invariant of all runs**: well-formed maps, where the two maps between values and atoms are
inverse and fresh storage has one owner. -/
structure Consistent (maps : ValueMaps) : Prop extends WellFormed maps where
  leaves_valid : ∀ v identity, maps.values v = some identity →
    ∀ leaf ∈ identity.leaves, leaf.atom.valid = true
  nonempty : ∀ v, (maps.values v).isSome = true → (maps.valueAtoms v).Nonempty
  listed : ∀ v a, v ∈ maps.atomValues a ↔ a ∈ maps.valueAtoms v
  one_root : ∀ v w a, maps.relationSources v = ∅ → maps.relationSources w = ∅ →
    a ∈ maps.valueAtoms v → a ∈ maps.valueAtoms w → v = w

theorem Consistent.empty : Consistent {} where
  toWellFormed := .empty
  leaves_valid _ _ h := nomatch h
  nonempty _ h := nomatch h
  listed _ _ := by simp
  one_root _ _ _ _ _ h := absurd h (Finset.notMem_empty _)

section Insert

variable {maps : ValueMaps} {identity : ValueIdentity} {shared : Bool} {sources : Finset ValueId}
  {v : ValueId}

@[simp] theorem values_insert_self :
    ((maps.insertIdentity identity).withSources identity.value sources).values identity.value =
      some identity :=
  Function.update_self ..

@[simp] theorem valueAtoms_insert_self :
    ((maps.insertIdentity identity).withSources identity.value sources).valueAtoms identity.value =
      identity.atoms :=
  Function.update_self ..

@[simp] theorem relationSources_insert_self :
    ((maps.insertIdentity identity).withSources identity.value sources).relationSources
      identity.value = sources :=
  Function.update_self ..

theorem values_insert_of_ne (h : v ≠ identity.value) :
    ((maps.insertIdentity identity).withSources identity.value sources).values v = maps.values v :=
  Function.update_of_ne h ..

theorem valueAtoms_insert_of_ne (h : v ≠ identity.value) :
    ((maps.insertIdentity identity).withSources identity.value sources).valueAtoms v =
      maps.valueAtoms v :=
  Function.update_of_ne h ..

theorem relationSources_insert_of_ne (h : v ≠ identity.value) :
    ((maps.insertIdentity identity).withSources identity.value sources).relationSources v =
      maps.relationSources v :=
  Function.update_of_ne h ..

theorem mem_atomValues_insert {a : AtomId} :
    v ∈ ((maps.insertIdentity identity).withSources identity.value sources).atomValues a ↔
      (v = identity.value ∧ a ∈ identity.atoms) ∨ v ∈ maps.atomValues a := by
  simp only [insertIdentity, withSources]
  split_ifs with ha
  · rw [Finset.mem_insert, and_iff_left ha]
  · simp [ha]

theorem sup_insert (hnew : maps.values identity.value = none)
    {values : Finset ValueId} (hvalues : ∀ s ∈ values, (maps.values s).isSome = true) :
    values.sup ((maps.insertIdentity identity).withSources identity.value sources).valueAtoms =
      values.sup maps.valueAtoms := by
  refine Finset.sup_congr rfl fun s hs => valueAtoms_insert_of_ne ?_
  rintro rfl
  simpa [hnew] using hvalues _ hs

end Insert

namespace Consistent

variable {maps : ValueMaps} (h : maps.Consistent)

include h

theorem registered_of_mem {v : ValueId} {a : AtomId} (ha : a ∈ maps.valueAtoms v) :
    (maps.values v).isSome = true := by
  rw [h.atoms_eq] at ha
  cases hv : maps.values v with
  | none => simp [hv] at ha
  | some identity => rfl

/-- **A registration keeps the invariant.** -/
theorem register {identity : ValueIdentity} {shared : Bool} {sources : Finset ValueId}
    (haccepts : maps.Accepts identity shared)
    (hsources : ∀ s ∈ sources, (maps.values s).isSome = true)
    (hfresh : sources = ∅ → shared = false)
    (hatoms : sources.Nonempty → ∀ a ∈ identity.atoms, ∃ s ∈ sources, a ∈ maps.valueAtoms s) :
    ((maps.insertIdentity identity).withSources identity.value sources).Consistent := by
  have hnone : maps.valueAtoms identity.value = ∅ := by
    rw [h.atoms_eq, haccepts.new]
    rfl
  -- a new value without sources shares no atom with the values that are there
  have hroot : sources = ∅ → ∀ w, w ≠ identity.value → ∀ a ∈ identity.atoms,
      a ∉ maps.valueAtoms w := by
    intro hempty w _ a ha hmem
    have hlisted := (h.listed w a).2 hmem
    rw [haccepts.fresh (hfresh hempty) a ha] at hlisted
    exact Finset.notMem_empty _ hlisted
  refine ⟨h.insert haccepts.new hsources hatoms, ?_, ?_, ?_, ?_⟩
  · intro v other hv
    by_cases hself : v = identity.value
    · rw [hself, values_insert_self] at hv
      obtain rfl := Option.some.inj hv
      exact haccepts.leaves
    · rw [values_insert_of_ne hself] at hv
      exact h.leaves_valid v other hv
  · intro v hv
    by_cases hself : v = identity.value
    · rw [hself, valueAtoms_insert_self]
      exact haccepts.atoms
    · rw [values_insert_of_ne hself] at hv
      rw [valueAtoms_insert_of_ne hself]
      exact h.nonempty v hv
  · intro v a
    rw [mem_atomValues_insert, h.listed]
    by_cases hself : v = identity.value
    · rw [hself, valueAtoms_insert_self, hnone]
      simp
    · rw [valueAtoms_insert_of_ne hself]
      simp [hself]
  · intro v w a hv hw hav haw
    by_cases hself : v = identity.value <;> by_cases hself' : w = identity.value
    · rw [hself, hself']
    · rw [hself, relationSources_insert_self] at hv
      rw [hself, valueAtoms_insert_self] at hav
      rw [valueAtoms_insert_of_ne hself'] at haw
      exact absurd haw (hroot hv w hself' a hav)
    · rw [hself', relationSources_insert_self] at hw
      rw [hself', valueAtoms_insert_self] at haw
      rw [valueAtoms_insert_of_ne hself] at hav
      exact absurd hav (hroot hw v hself a haw)
    · rw [relationSources_insert_of_ne hself] at hv
      rw [relationSources_insert_of_ne hself'] at hw
      rw [valueAtoms_insert_of_ne hself] at hav
      rw [valueAtoms_insert_of_ne hself'] at haw
      exact h.one_root v w a hv hw hav haw

end Consistent

end ValueMaps

/-! ### What the maps promise -/

namespace ValueMaps

/-- **What a table promises.** -/
structure Promises (maps : ValueMaps) : Prop where
  acyclic : ∀ v, ¬ Relation.TransGen maps.Source v v
  listed : ∀ v a, v ∈ maps.atomValues a ↔ a ∈ maps.valueAtoms v
  nonempty : ∀ v, (maps.values v).isSome = true → (maps.valueAtoms v).Nonempty
  union : ∀ v, (maps.relationSources v).Nonempty →
    maps.valueAtoms v = (maps.relationSources v).sup maps.valueAtoms
  shared : ∀ v w a, a ∈ maps.valueAtoms v → a ∈ maps.valueAtoms w →
    ∃ root, Relation.ReflTransGen maps.Source root v ∧ Relation.ReflTransGen maps.Source root w

namespace Consistent

variable {maps : ValueMaps} (h : maps.Consistent)

include h

theorem not_source_self (v : ValueId) : ¬ Relation.TransGen maps.Source v v := by
  obtain ⟨rank, hrank⟩ := h.acyclic
  have hlt : ∀ {s v}, Relation.TransGen maps.Source s v → rank s < rank v := by
    intro s v hs
    induction hs with
    | single hs => exact hrank _ _ hs
    | tail _ hs ih => exact ih.trans (hrank _ _ hs)
  exact fun hself => (hlt hself).false

/-- Every atom of a value comes from fresh storage. -/
theorem exists_root {v : ValueId} {a : AtomId} (ha : a ∈ maps.valueAtoms v) :
    ∃ root, Relation.ReflTransGen maps.Source root v ∧ maps.relationSources root = ∅ ∧
      a ∈ maps.valueAtoms root := by
  obtain ⟨rank, hrank⟩ := h.acyclic
  -- the sources of a value have smaller rank
  induction hn : rank v using Nat.strong_induction_on generalizing v with
  | _ n ih =>
      by_cases hroot : maps.relationSources v = ∅
      · exact ⟨v, .refl, hroot, ha⟩
      · obtain ⟨s, hs, has⟩ := h.atom_of_source v (Finset.nonempty_iff_ne_empty.2 hroot) a ha
        have hless := hrank v s hs
        obtain ⟨root, hpath, hempty, hatom⟩ := ih (rank s) (by omega) has rfl
        exact ⟨root, hpath.tail hs, hempty, hatom⟩

/-- **Values that share an atom have a common source**: the owner of the storage. -/
theorem shared {v w : ValueId} {a : AtomId} (hv : a ∈ maps.valueAtoms v)
    (hw : a ∈ maps.valueAtoms w) :
    ∃ root, Relation.ReflTransGen maps.Source root v ∧ Relation.ReflTransGen maps.Source root w := by
  obtain ⟨root, hpath, hempty, hatom⟩ := h.exists_root hv
  obtain ⟨root', hpath', hempty', hatom'⟩ := h.exists_root hw
  obtain rfl := h.one_root root root' a hempty hempty' hatom hatom'
  exact ⟨root, hpath, hpath'⟩

theorem promises (hunion : ∀ v, (maps.relationSources v).Nonempty →
    maps.valueAtoms v = (maps.relationSources v).sup maps.valueAtoms) : maps.Promises where
  acyclic := h.not_source_self
  listed := h.listed
  nonempty := h.nonempty
  union := hunion
  shared _ _ _ := h.shared

end Consistent

/-! ### The atoms of a related value -/

/-- The scalar atoms of the sources of a relation are kept: there is no other atom, or some source
offers them. -/
def KeepsScalars (maps : ValueMaps) (sourceValues : List ValueId) : Prop :=
  (sourceValues.toFinset.sup maps.valueAtoms).card = 1 ∨
    ∀ s ∈ sourceValues, ∀ source, maps.values s = some source → source.atom.valid = true →
      ∃ s' ∈ sourceValues, ∃ source', maps.values s' = some source' ∧ source'.Offers source.atom

theorem inOrder_singleton {tag : Type} (id : StableId tag) : inOrder {id} = [id] := rfl

namespace Consistent

variable {maps : ValueMaps} (h : maps.Consistent) {binding : BindingId} {relatedValue : ValueId}
  {sourceValues : List ValueId} {context : ValueContext} {a : AtomId}

include h

theorem mem_valueAtoms {v : ValueId} {identity : ValueIdentity}
    (hv : maps.values v = some identity) : a ∈ maps.valueAtoms v ↔ a ∈ identity.atoms := by
  rw [h.atoms_eq, hv]
  rfl

theorem valid_of_mem {v : ValueId} (ha : a ∈ maps.valueAtoms v) : a.valid = true := by
  obtain ⟨identity, hv⟩ := Option.isSome_iff_exists.1 (h.registered_of_mem ha)
  exact (ValueIdentity.mem_atoms.1 ((h.mem_valueAtoms hv).1 ha)).1

/-- The atoms of the leaves that a relation takes from a source are those that it offers. -/
theorem offers_iff {s : ValueId} {source : ValueIdentity} (hs : maps.values s = some source)
    (hvalid : a.valid = true) :
    (∃ leaf ∈ ValueMaps.sourceLeaves source (maps.valueAtoms s), leaf.atom = a) ↔
      source.Offers a := by
  unfold ValueMaps.sourceLeaves ValueIdentity.Offers
  rcases hleaves : source.leaves with _ | ⟨first, rest⟩
  · have hmem : a ∈ maps.valueAtoms s ↔ source.atom = a := by
      rw [h.mem_valueAtoms hs, ValueIdentity.mem_atoms, hleaves]
      simp [hvalid, eq_comm]
    simp [hmem]
  · simp

theorem exists_leaf_iff (hvalid : a.valid = true) :
    (∃ leaf ∈ maps.relationLeaves sourceValues, leaf.atom = a) ↔
      ∃ s ∈ sourceValues, ∃ source, maps.values s = some source ∧ source.Offers a := by
  simp only [relationLeaves, List.mem_dedup, List.mem_insertionSort, List.mem_flatMap]
  constructor
  · rintro ⟨leaf, ⟨s, hs, hleaf⟩, hatom⟩
    cases hsource : maps.values s with
    | none => simp [hsource] at hleaf
    | some source =>
        simp only [hsource] at hleaf
        exact ⟨s, hs, source, hsource, (h.offers_iff hsource hvalid).1 ⟨leaf, hleaf, hatom⟩⟩
  · rintro ⟨s, hs, source, hsource, hoffers⟩
    obtain ⟨leaf, hleaf, hatom⟩ := (h.offers_iff hsource hvalid).2 hoffers
    exact ⟨leaf, ⟨s, hs, by simpa only [hsource] using hleaf⟩, hatom⟩

theorem relation_atoms_of_card (hcard : (sourceValues.toFinset.sup maps.valueAtoms).card = 1) :
    (maps.relationIdentity binding relatedValue sourceValues context).atoms =
      sourceValues.toFinset.sup maps.valueAtoms := by
  obtain ⟨a, ha⟩ := Finset.card_eq_one.1 hcard
  obtain ⟨s, -, hmem⟩ : ∃ s ∈ sourceValues.toFinset, a ∈ maps.valueAtoms s :=
    Finset.mem_sup.1 (by rw [ha]; exact Finset.mem_singleton_self a)
  refine Finset.Subset.antisymm (fun b hb => Finset.mem_sup.2 (h.relationIdentity hb)) ?_
  rw [ha, Finset.singleton_subset_iff, ValueIdentity.mem_atoms]
  refine ⟨h.valid_of_mem hmem, .inl ?_⟩
  simp only [relationIdentity, ha, inOrder_singleton]

/-- A relation with several atoms has those that its sources offer. -/
theorem mem_relation_atoms_iff
    (hcard : (sourceValues.toFinset.sup maps.valueAtoms).card ≠ 1) :
    a ∈ (maps.relationIdentity binding relatedValue sourceValues context).atoms ↔
      a.valid = true ∧
        ∃ s ∈ sourceValues, ∃ source, maps.values s = some source ∧ source.Offers a := by
  have hinvalid : (maps.relationIdentity binding relatedValue sourceValues context).atom =
      .invalid := by
    simp only [relationIdentity]
    split
    · rename_i atom hatoms
      refine absurd (Finset.card_eq_one.2 ⟨atom, ?_⟩) hcard
      ext b
      rw [← mem_inOrder, hatoms, List.mem_singleton, Finset.mem_singleton]
    · rfl
  have hleaves : (maps.relationIdentity binding relatedValue sourceValues context).leaves =
      maps.relationLeaves sourceValues := by
    simp only [relationIdentity]
    rw [if_neg fun h => hcard h.1]
  rw [ValueIdentity.mem_atoms, hinvalid, hleaves]
  refine and_congr_right fun hvalid => ?_
  rw [h.exists_leaf_iff hvalid, or_iff_right]
  rintro rfl
  cases hvalid

/-- **The atoms of a related value are those of its sources exactly where the relation keeps their
scalar atoms.** -/
theorem relation_atoms_iff (hsome : ∀ s ∈ sourceValues, (maps.values s).isSome = true) :
    (maps.relationIdentity binding relatedValue sourceValues context).atoms =
        sourceValues.toFinset.sup maps.valueAtoms ↔ maps.KeepsScalars sourceValues := by
  by_cases hcard : (sourceValues.toFinset.sup maps.valueAtoms).card = 1
  · exact iff_of_true (h.relation_atoms_of_card hcard) (.inl hcard)
  unfold KeepsScalars
  rw [or_iff_right hcard]
  constructor
  · intro heq s hs source hsource hvalid
    have hmem : source.atom ∈ sourceValues.toFinset.sup maps.valueAtoms :=
      Finset.mem_sup.2 ⟨s, List.mem_toFinset.2 hs, (h.mem_valueAtoms hsource).2
        (ValueIdentity.mem_atoms.2 ⟨hvalid, .inl rfl⟩)⟩
    rw [← heq, h.mem_relation_atoms_iff hcard] at hmem
    exact hmem.2
  · intro hkeeps
    refine Finset.Subset.antisymm (fun b hb => Finset.mem_sup.2 (h.relationIdentity hb)) ?_
    intro b hb
    obtain ⟨s, hs, hmem⟩ := Finset.mem_sup.1 hb
    rw [List.mem_toFinset] at hs
    obtain ⟨source, hsource⟩ := Option.isSome_iff_exists.1 (hsome s hs)
    rw [h.mem_valueAtoms hsource, ValueIdentity.mem_atoms] at hmem
    rw [h.mem_relation_atoms_iff hcard]
    obtain ⟨hvalid, rfl | hleaf⟩ := hmem
    · exact ⟨hvalid, hkeeps s hs source hsource hvalid⟩
    · exact ⟨hvalid, s, hs, source, hsource, .inr hleaf⟩

/-- A relation of registered values is refused for its identifiers only. -/
theorem relation_accepts (hbinding : binding.valid = true) (hrelated : relatedValue.valid = true)
    (hnew : maps.values relatedValue = none) (hne : sourceValues ≠ [])
    (hsome : ∀ s ∈ sourceValues, (maps.values s).isSome = true) :
    maps.Accepts (maps.relationIdentity binding relatedValue sourceValues context) true := by
  refine ⟨hbinding, hrelated, hnew, ?_, ?_, nofun⟩
  · intro leaf hleaf
    have hmem : leaf ∈ maps.relationLeaves sourceValues := by
      simp only [relationIdentity] at hleaf
      split_ifs at hleaf
      · cases hleaf
      · exact hleaf
    rw [relationLeaves, List.mem_dedup, List.mem_insertionSort, List.mem_flatMap] at hmem
    obtain ⟨s, hs, hmem⟩ := hmem
    obtain ⟨source, hsource⟩ := Option.isSome_iff_exists.1 (hsome s hs)
    simp only [hsource, ValueMaps.sourceLeaves] at hmem
    split_ifs at hmem
    · obtain ⟨atom, hatom, rfl⟩ := List.mem_map.1 hmem
      exact h.valid_of_mem (mem_inOrder.1 hatom)
    · exact h.leaves_valid s source hsource leaf hmem
  · by_cases hcard : (sourceValues.toFinset.sup maps.valueAtoms).card = 1
    · rw [h.relation_atoms_of_card hcard]
      exact Finset.card_pos.1 (by omega)
    · obtain ⟨s, hs⟩ := List.exists_mem_of_ne_nil _ hne
      obtain ⟨source, hsource⟩ := Option.isSome_iff_exists.1 (hsome s hs)
      rcases hleaves : source.leaves with _ | ⟨first, rest⟩
      · obtain ⟨a, ha⟩ := h.nonempty s (hsome s hs)
        have hvalid := h.valid_of_mem ha
        rw [h.mem_valueAtoms hsource, ValueIdentity.mem_atoms, hleaves] at ha
        refine ⟨a, (h.mem_relation_atoms_iff hcard).2 ⟨hvalid, s, hs, source, hsource, .inl ?_⟩⟩
        exact ⟨hleaves, Eq.symm (by simpa using ha.2)⟩
      · have hfirst : first ∈ source.leaves := by
          rw [hleaves]
          exact List.mem_cons_self
        exact ⟨first.atom, (h.mem_relation_atoms_iff hcard).2
          ⟨h.leaves_valid s source hsource first hfirst, s, hs, source, hsource,
            .inr ⟨first, hfirst, rfl⟩⟩⟩

end Consistent

end ValueMaps

/-! ### Runs -/

inductive Registration
  | registerValue (identity : ValueIdentity)
  | registerAggregate (binding : BindingId) (value : ValueId) (leaves : List AtomLeaf)
      (context : ValueContext)
  | registerAlias (binding : BindingId) (aliasValue sourceValue : ValueId) (context : ValueContext)
  | registerAtomRelation (binding : BindingId) (relatedValue : ValueId)
      (sourceValues : List ValueId) (context : ValueContext)

namespace Registration

def perform : Registration → Registry Unit
  | registerValue identity => Registry.registerValue identity
  | registerAggregate binding value leaves context =>
      Registry.registerAggregate binding value leaves context
  | registerAlias binding aliasValue sourceValue context =>
      Registry.registerAlias binding aliasValue sourceValue context
  | registerAtomRelation binding relatedValue sourceValues context =>
      Registry.registerAtomRelation binding relatedValue sourceValues context

def next (maps : ValueMaps) (registration : Registration) : ValueMaps :=
  (registration.perform.run maps).2

/-- The call as a function that gives new maps or an error. -/
def result (maps : ValueMaps) : Registration → Except ValueRegistryError ValueMaps
  | registerValue identity => maps.registerValue identity
  | registerAggregate binding value leaves context =>
      maps.registerAggregate binding value leaves context
  | registerAlias binding aliasValue sourceValue context =>
      maps.registerAlias binding aliasValue sourceValue context
  | registerAtomRelation binding relatedValue sourceValues context =>
      maps.registerAtomRelation binding relatedValue sourceValues context

/-- **The steps compute the functions of the table.** -/
theorem perform_run (maps : ValueMaps) (registration : Registration) :
    registration.perform.run maps = Registry.outcome maps (registration.result maps) := by
  cases registration with
  | registerValue identity => exact Registry.registerIdentity_run maps identity false
  | registerAggregate binding value leaves context =>
      exact Registry.registerIdentity_run maps _ false
  | registerAlias binding aliasValue sourceValue context =>
      exact Registry.registerAlias_run maps binding aliasValue sourceValue context
  | registerAtomRelation binding relatedValue sourceValues context =>
      exact Registry.registerAtomRelation_run maps binding relatedValue sourceValues context

theorem next_of_ok {maps maps' : ValueMaps} {registration : Registration}
    (h : registration.result maps = .ok maps') : registration.next maps = maps' := by
  rw [next, perform_run, h]
  rfl

theorem next_of_refused {maps : ValueMaps} {registration : Registration} {err : ValueRegistryError}
    (h : (registration.perform.run maps).1 = .error err) : registration.next maps = maps := by
  rw [next]
  rw [perform_run] at h ⊢
  cases hresult : registration.result maps with
  | error err' => rfl
  | ok maps' =>
      rw [hresult] at h
      cases h

/-- The sources that a call gives to its value. -/
def sources : Registration → Finset ValueId
  | registerValue _ => ∅
  | registerAggregate _ _ _ _ => ∅
  | registerAlias _ _ sourceValue _ => {sourceValue}
  | registerAtomRelation _ _ sourceValues _ => sourceValues.toFinset

/-- A relation that is not refused keeps the scalar atoms of its sources. -/
def KeepsAtoms (maps : ValueMaps) : Registration → Prop
  | registerAtomRelation binding relatedValue sourceValues _ =>
      binding.valid = true → relatedValue.valid = true → maps.values relatedValue = none →
        sourceValues ≠ [] → (∀ s ∈ sourceValues, (maps.values s).isSome = true) →
          maps.KeepsScalars sourceValues
  | _ => True

/-- What a call that succeeds registers: an accepted value and its sources.  The atoms of the value are
those of the sources, except for a relation that loses scalar atoms. -/
structure Registers (maps : ValueMaps) (registration : Registration) (identity : ValueIdentity)
    (shared : Bool) : Prop where
  accepts : maps.Accepts identity shared
  sources_registered : ∀ s ∈ registration.sources, (maps.values s).isSome = true
  fresh : registration.sources = ∅ → shared = false
  atom_of_source : registration.sources.Nonempty →
    ∀ a ∈ identity.atoms, ∃ s ∈ registration.sources, a ∈ maps.valueAtoms s
  union_iff : registration.sources.Nonempty →
    (identity.atoms = registration.sources.sup maps.valueAtoms ↔ registration.KeepsAtoms maps)

end Registration

namespace ValueMaps.Consistent

variable {maps maps' : ValueMaps} (h : maps.Consistent) {registration : Registration}

include h

/-- **What a call does.** -/
theorem result_ok (hok : registration.result maps = .ok maps') :
    ∃ identity shared, registration.Registers maps identity shared ∧
      maps' = (maps.insertIdentity identity).withSources identity.value registration.sources := by
  -- a value that is new has no sources yet
  have hfresh : ∀ identity : ValueIdentity, maps.values identity.value = none →
      maps.insertIdentity identity =
        (maps.insertIdentity identity).withSources identity.value ∅ := by
    intro identity hnew
    have hnone : maps.relationSources identity.value = ∅ := by
      rw [← Finset.not_nonempty_iff_eq_empty]
      intro hsome
      simpa [hnew] using h.registered _ hsome
    rw [withSources, insertIdentity]
    simp only [← hnone, Function.update_eq_self]
  have hvalue : ∀ {identity : ValueIdentity}, maps.registerIdentity identity false = .ok maps' →
      maps.Accepts identity false ∧
        maps' = (maps.insertIdentity identity).withSources identity.value ∅ := by
    intro identity hreg
    obtain ⟨haccepts, rfl⟩ := registerIdentity_eq_ok.1 hreg
    exact ⟨haccepts, hfresh identity haccepts.new⟩
  cases registration with
  | registerValue identity =>
      obtain ⟨haccepts, heq⟩ := hvalue hok
      refine ⟨identity, false, ⟨haccepts, ?_, fun _ => rfl, ?_, ?_⟩, heq⟩ <;>
        simp [Registration.sources]
  | registerAggregate binding value leaves context =>
      obtain ⟨haccepts, heq⟩ := hvalue hok
      refine ⟨_, false, ⟨haccepts, ?_, fun _ => rfl, ?_, ?_⟩, heq⟩ <;>
        simp [Registration.sources]
  | registerAlias binding aliasValue sourceValue context =>
      simp only [Registration.result, ValueMaps.registerAlias] at hok
      cases hsource : maps.values sourceValue with
      | none =>
          rw [hsource] at hok
          cases hok
      | some source =>
          rw [hsource] at hok
          simp only at hok
          cases hreg : maps.registerIdentity
              ⟨binding, aliasValue, source.atom, context, source.leaves⟩ true with
          | error err =>
              rw [hreg] at hok
              cases hok
          | ok inserted =>
              rw [hreg] at hok
              obtain rfl := Except.ok.inj hok
              obtain ⟨haccepts, rfl⟩ := registerIdentity_eq_ok.1 hreg
              -- an alias takes the atoms of its one source
              have hatoms : maps.valueAtoms sourceValue = source.atoms := by
                rw [h.atoms_eq, hsource]
                rfl
              refine ⟨_, true, ⟨haccepts, ?_, ?_, ?_, ?_⟩, rfl⟩
              · simp [Registration.sources, hsource]
              · simp [Registration.sources]
              · intro _ a ha
                exact ⟨sourceValue, Finset.mem_singleton_self _, by rw [hatoms]; exact ha⟩
              · intro _
                refine iff_of_true ?_ trivial
                rw [Registration.sources, Finset.sup_singleton, hatoms]
                rfl
  | registerAtomRelation binding relatedValue sourceValues context =>
      simp only [Registration.result, ValueMaps.registerAtomRelation] at hok
      split_ifs at hok with hempty
      split at hok
      · cases hok
      · rename_i hfind
        rw [List.find?_eq_none] at hfind
        cases hreg : maps.registerIdentity
            (maps.relationIdentity binding relatedValue sourceValues context) true with
        | error err =>
            rw [hreg] at hok
            cases hok
        | ok inserted =>
            rw [hreg] at hok
            obtain rfl := Except.ok.inj hok
            obtain ⟨haccepts, rfl⟩ := registerIdentity_eq_ok.1 hreg
            have hne : sourceValues ≠ [] := by simpa using hempty
            have hsome : ∀ s ∈ sourceValues, (maps.values s).isSome = true := by
              intro s hs
              simpa [Option.isSome_iff_ne_none] using hfind s hs
            refine ⟨_, true, ⟨haccepts, ?_, ?_, fun _ a ha => h.relationIdentity ha, ?_⟩, rfl⟩
            · simpa [Registration.sources] using hsome
            · simp [Registration.sources, hne]
            · intro _
              rw [Registration.sources, h.relation_atoms_iff hsome]
              exact ⟨fun hkeeps _ _ _ _ _ => hkeeps, fun hkeeps =>
                hkeeps haccepts.binding haccepts.value haccepts.new hne hsome⟩

/-- **Every call keeps the invariant.** -/
theorem next : (registration.next maps).Consistent := by
  cases hresult : registration.result maps with
  | error err =>
      have hrefused : (registration.perform.run maps).1 = .error err := by
        rw [Registration.perform_run, hresult]
        rfl
      rwa [Registration.next_of_refused hrefused]
  | ok maps' =>
      rw [Registration.next_of_ok hresult]
      obtain ⟨identity, shared, hreg, rfl⟩ := h.result_ok hresult
      exact h.register hreg.accepts hreg.sources_registered hreg.fresh hreg.atom_of_source

/-- A relation that loses a scalar atom is not refused. -/
theorem exists_ok_of_not_keepsAtoms (hloses : ¬ registration.KeepsAtoms maps) :
    ∃ maps', registration.result maps = .ok maps' := by
  cases registration with
  | registerValue => exact absurd trivial hloses
  | registerAggregate => exact absurd trivial hloses
  | registerAlias => exact absurd trivial hloses
  | registerAtomRelation binding relatedValue sourceValues context =>
      simp only [Registration.KeepsAtoms, Classical.not_imp] at hloses
      obtain ⟨hbinding, hrelated, hnew, hne, hsome, -⟩ := hloses
      have haccepts : maps.Accepts
          (maps.relationIdentity binding relatedValue sourceValues context) true :=
        h.relation_accepts hbinding hrelated hnew hne hsome
      have hfind : sourceValues.find? (fun value => (maps.values value).isNone) = none := by
        rw [List.find?_eq_none]
        intro s hs
        simpa [Option.isSome_iff_ne_none] using hsome s hs
      simp only [Registration.result, ValueMaps.registerAtomRelation, hfind,
        registerIdentity_eq_ok.2 ⟨haccepts, rfl⟩]
      rw [if_neg (by simpa using hne)]
      exact ⟨_, rfl⟩

/-- **A call keeps what the table promises exactly where it keeps the scalar atoms of its sources.** -/
theorem promises_next_iff (hpromises : maps.Promises) :
    (registration.next maps).Promises ↔ registration.KeepsAtoms maps := by
  constructor
  · intro hnext
    by_contra hloses
    obtain ⟨maps', hresult⟩ := h.exists_ok_of_not_keepsAtoms hloses
    rw [Registration.next_of_ok hresult] at hnext
    obtain ⟨identity, shared, hreg, rfl⟩ := h.result_ok hresult
    have hsources : registration.sources.Nonempty := by
      by_contra hempty
      refine hloses ?_
      cases registration with
      | registerAtomRelation binding relatedValue sourceValues context =>
          intro _ _ _ hne
          simp [Registration.sources, hne] at hempty
      | _ => trivial
    have hunion := hnext.union identity.value (by rwa [relationSources_insert_self])
    rw [valueAtoms_insert_self, relationSources_insert_self,
      sup_insert hreg.accepts.new hreg.sources_registered] at hunion
    exact hloses ((hreg.union_iff hsources).1 hunion)
  · intro hkeeps
    refine h.next.promises ?_
    cases hresult : registration.result maps with
    | error err =>
        have hrefused : (registration.perform.run maps).1 = .error err := by
          rw [Registration.perform_run, hresult]
          rfl
        rw [Registration.next_of_refused hrefused]
        exact hpromises.union
    | ok maps' =>
        rw [Registration.next_of_ok hresult]
        obtain ⟨identity, shared, hreg, rfl⟩ := h.result_ok hresult
        intro v hsources
        by_cases hself : v = identity.value
        · rw [hself, relationSources_insert_self] at hsources ⊢
          rw [valueAtoms_insert_self, sup_insert hreg.accepts.new hreg.sources_registered]
          exact (hreg.union_iff hsources).2 hkeeps
        · rw [relationSources_insert_of_ne hself] at hsources ⊢
          rw [valueAtoms_insert_of_ne hself,
            sup_insert hreg.accepts.new (h.source_registered v)]
          exact hpromises.union v hsources

end ValueMaps.Consistent

/-- **The promises are kept along a run exactly where every relation keeps the scalar atoms of its
sources**; a refused call changes nothing in any run. -/
theorem promises_iff (registrations : List Registration) :
    AlongRun Registration.next (fun maps registration =>
        (registration.next maps).Promises ∧
          ∀ err, (registration.perform.run maps).1 = .error err → registration.next maps = maps)
      {} registrations ↔
    AlongRun Registration.next (fun maps registration => registration.KeepsAtoms maps)
      {} registrations := by
  refine alongRun_iff (fun maps => maps.Consistent ∧ maps.Promises) ?_ ?_ ?_ registrations
  · rintro maps registration ⟨hconsistent, -⟩ ⟨hpromises, -⟩
    exact ⟨hconsistent.next, hpromises⟩
  · rintro maps registration ⟨hconsistent, hpromises⟩
    rw [hconsistent.promises_next_iff hpromises, and_iff_left]
    exact fun err => Registration.next_of_refused
  · exact ⟨.empty, ValueMaps.Consistent.empty.promises fun v hv =>
      absurd hv Finset.not_nonempty_empty⟩

/-- A relation to a value with a scalar atom and a leaf with another one has the atom of the leaf
only. -/
theorem not_promises_of_mixed_source :
    ¬ AlongRun Registration.next (fun maps registration =>
        (registration.next maps).Promises ∧
          ∀ err, (registration.perform.run maps).1 = .error err → registration.next maps = maps)
      {} [.registerValue ⟨⟨1⟩, ⟨1⟩, ⟨1⟩, {}, [⟨[0], ⟨2⟩⟩]⟩,
        .registerAtomRelation ⟨2⟩ ⟨2⟩ [⟨1⟩] {}] := by
  rintro ⟨-, ⟨hpromises, -⟩, -⟩
  have hunion := hpromises.union ⟨2⟩ (by decide +kernel)
  revert hunion
  decide +kernel

end AtomicProof
