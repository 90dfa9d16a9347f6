/-
Reading debug information back, one part at a time.

`DebugInfo::fromJson` in `src/src/debugger/info/debug_info.cpp` reads the scopes, the functions and
the instructions of a file, and brings what it reads up to date: origins are inferred and kept once,
ranges are normalized, functions are linked to their scopes.  For each part this module says what is
read and when it is what was written.

Numbers that are read with the `int` zero as their default are cut to 32 bits; the results are about
information whose places, lines and columns are below `2 ^ 31`.

Main definitions:

* `DebugInfo.Core` — what `validateV2Core` checks, as a proposition;
* `DebugInfo.Small` — the numbers that are read as an `int` fit;
* `CanonicalScope`, `CanonicalFunction`, `CanonicalInstruction` — the forms that reading establishes.

Main results:

* `DebugInfo.Core.loadScopes_eq` — the scopes are read in their places, with their parents;
* `copyScope_eq_self_iff`, `loadFunction_eq_self_iff`, `upgradeInstruction_eq_self_iff` — what is
  read is what was written exactly if that has the form.
-/

import AtomicProof.DebugInfo
import AtomicProof.GroupedFold
import Mathlib.Data.List.Nodup
import Mathlib.Tactic.NormNum

set_option autoImplicit false

namespace AtomicProof

namespace ApcDebug

/-! ### Lists of origins -/

/-- The list without the origins that occur before. -/
def uniqueOrigins (origins : List SourceOrigin) : List SourceOrigin :=
  origins.foldl appendUniqueOrigin []

variable {origins start : List SourceOrigin} {origin : SourceOrigin} {pc id index : ℕ} {α : Type}
  {info : DebugInfo} {variable_ : VariableDebugInfo} {scope : ScopeDebugInfo}
  {scopes : List ScopeDebugInfo} {name : String} {instruction : InstructionDebugInfo}
  {functions : NameMap FunctionDebugInfo}

theorem mem_foldl_appendUniqueOrigin :
    origin ∈ origins.foldl appendUniqueOrigin start ↔ origin ∈ start ∨ origin ∈ origins := by
  induction origins generalizing start with
  | nil => simp
  | cons first rest ih =>
      rw [List.foldl_cons, ih, List.mem_cons]
      unfold appendUniqueOrigin
      split
      · rename_i hmem
        constructor
        · rintro (h | h)
          · exact Or.inl h
          · exact Or.inr (Or.inr h)
        · rintro (h | rfl | h)
          · exact Or.inl h
          · exact Or.inl hmem
          · exact Or.inr h
      · rw [List.mem_append, List.mem_singleton, or_assoc]

@[simp] theorem mem_uniqueOrigins : origin ∈ uniqueOrigins origins ↔ origin ∈ origins := by
  simp [uniqueOrigins, mem_foldl_appendUniqueOrigin]

theorem foldl_appendUniqueOrigin_of_nodup (h : (start ++ origins).Nodup) :
    origins.foldl appendUniqueOrigin start = start ++ origins := by
  induction origins generalizing start with
  | nil => simp
  | cons first rest ih =>
      have hfirst : first ∉ start := by
        intro hmem
        exact (List.nodup_append.mp h).2.2 first hmem first List.mem_cons_self rfl
      have hstep : appendUniqueOrigin start first = start ++ [first] := if_neg hfirst
      rw [List.foldl_cons, hstep, ih (by rwa [List.append_assoc, List.singleton_append]),
        List.append_assoc, List.singleton_append]

theorem nodup_foldl_appendUniqueOrigin (h : start.Nodup) :
    (origins.foldl appendUniqueOrigin start).Nodup := by
  induction origins generalizing start with
  | nil => exact h
  | cons first rest ih =>
      refine ih ?_
      unfold appendUniqueOrigin
      split
      · exact h
      · rename_i hmem
        exact List.nodup_append.mpr ⟨h, List.nodup_singleton first, by
          rintro origin horigin _ hfirst rfl
          exact hmem (List.mem_singleton.mp hfirst ▸ horigin)⟩

theorem uniqueOrigins_nodup (origins : List SourceOrigin) : (uniqueOrigins origins).Nodup :=
  nodup_foldl_appendUniqueOrigin List.nodup_nil

theorem uniqueOrigins_eq_self_iff : uniqueOrigins origins = origins ↔ origins.Nodup := by
  constructor
  · intro h
    rw [← h]
    exact uniqueOrigins_nodup origins
  · intro h
    exact foldl_appendUniqueOrigin_of_nodup (by simpa using h)

@[simp] theorem uniqueOrigins_eq_nil_iff : uniqueOrigins origins = [] ↔ origins = [] := by
  constructor
  · intro h
    cases origins with
    | nil => rfl
    | cons first rest =>
        have : first ∈ uniqueOrigins (first :: rest) := by simp
        rw [h] at this
        exact absurd this List.not_mem_nil
  · rintro rfl
    rfl

/-! ### Maps that are read -/

section Rekey

variable {κ α β : Type} [Ord κ] [Std.TransOrd κ] [Std.LawfulEqOrd κ] [DecidableEq κ]

omit [Std.LawfulEqOrd κ] [DecidableEq κ] in
theorem rekey_eq_fill (key : β → κ) (load : α → β) (map : Std.ExtTreeMap κ α) :
    rekey key load map = OrderedMap.fill (fun entry => some (key (load entry.2)))
      (fun _ entry => load entry.2) map.toList ∅ := rfl

/-- What is read comes from the map. -/
theorem exists_of_getElem?_rekey {key : β → κ} {load : α → β} {map : Std.ExtTreeMap κ α} {k : κ}
    {v : β} (h : (rekey key load map)[k]? = some v) :
    key v = k ∧ ∃ (k' : κ) (v' : α), map[k']? = some v' ∧ load v' = v := by
  rw [rekey_eq_fill, OrderedMap.getElem?_fill] at h
  have hall : ∀ (entries : List (κ × α)) (start : Option β),
      OrderedMap.meet (fun _ entry => load entry.2) entries start = some v →
      start = some v ∨ ∃ entry ∈ entries, load entry.2 = v := by
    intro entries
    induction entries with
    | nil => exact fun start h => Or.inl h
    | cons entry entries ih =>
        intro start h
        rcases ih _ h with hentry | ⟨other, hmem, hother⟩
        · exact Or.inr ⟨entry, List.mem_cons_self, Option.some.inj hentry⟩
        · exact Or.inr ⟨other, List.mem_cons_of_mem _ hmem, hother⟩
  rcases hall _ _ h with h | ⟨entry, hmem, rfl⟩
  · rw [Std.ExtTreeMap.getElem?_empty] at h
    exact absurd h (by simp)
  · rw [List.mem_filter] at hmem
    refine ⟨by simpa using hmem.2, entry.1, entry.2, ?_, rfl⟩
    exact Std.ExtTreeMap.mem_toList_iff_getElem?_eq_some.mp hmem.1

/-- Where the keys are the ones that are read, every value is read in its place. -/
theorem getElem?_rekey_of_keys {key : β → κ} {load : α → β} {map : Std.ExtTreeMap κ α}
    (hkeys : ∀ k v, map[k]? = some v → key (load v) = k) (k : κ) :
    (rekey key load map)[k]? = map[k]?.map load := by
  have hfilter : (map.toList.filter fun entry => some (key (load entry.2)) = some k) =
      map.toList.filter fun entry => entry.1 = k := by
    refine List.filter_congr ?_
    rintro ⟨k', v⟩ hmem
    rw [hkeys k' v (Std.ExtTreeMap.mem_toList_iff_getElem?_eq_some.mp hmem)]
    simp
  rw [rekey_eq_fill, OrderedMap.getElem?_fill, hfilter, OrderedMap.filter_toList]
  cases map[k]? with
  | none => simp
  | some v => simp

/-- A map is read as itself exactly if every value is, under its own key. -/
theorem rekey_eq_self_iff {key : α → κ} {load : α → α} {map : Std.ExtTreeMap κ α}
    (hkey : ∀ v, key (load v) = key v) :
    rekey key load map = map ↔ ∀ k v, map[k]? = some v → key v = k ∧ load v = v := by
  constructor
  · intro h
    have hkeys : ∀ k v, map[k]? = some v → key v = k := by
      intro k v hget
      rw [← h] at hget
      exact (exists_of_getElem?_rekey hget).1
    intro k v hget
    refine ⟨hkeys k v hget, ?_⟩
    have hload : (rekey key load map)[k]? = map[k]?.map load :=
      getElem?_rekey_of_keys (fun k v hget => (hkey v).trans (hkeys k v hget)) k
    rw [h, hget, Option.map_some] at hload
    exact (Option.some.inj hload).symm
  · intro h
    refine Std.ExtTreeMap.ext_getElem? ?_
    intro k
    rw [getElem?_rekey_of_keys fun k v hget => by rw [(h k v hget).2, (h k v hget).1]]
    cases hget : map[k]? with
    | none => rfl
    | some v => rw [Option.map_some, (h k v hget).2]

end Rekey

/-! ### What is checked, and what fits -/

/-- What `validateV2Core` checks about an origin. -/
structure OriginCore (instructions : PCMap InstructionDebugInfo) (scopeIds : List ℕ) (pc : ℕ)
    (origin : SourceOrigin) : Prop where
  located : origin.location.isValid
  arms : (origin.path.map (·.region)).Nodup
  scope : origin.scopeId ≠ 0 → origin.scopeId ∈ scopeIds
  regions : ∀ predicate ∈ origin.path,
    predicate.region < pc ∧ isOpener instructions predicate.region

theorem validOrigin_iff {instructions : PCMap InstructionDebugInfo} {scopeIds : List ℕ} :
    validOrigin instructions scopeIds pc origin = true ↔ OriginCore instructions scopeIds pc origin := by
  unfold validOrigin hasDuplicatePathRegion
  simp only [Bool.and_eq_true, Bool.or_eq_true, Bool.not_eq_true', Bool.not_eq_false',
    decide_eq_true_eq, beq_iff_eq, List.contains_iff_mem, List.all_eq_true]
  constructor
  · rintro ⟨⟨⟨hlocated, harms⟩, hscope⟩, hregions⟩
    exact ⟨hlocated, harms, fun hne => hscope.resolve_left hne, hregions⟩
  · intro h
    refine ⟨⟨⟨h.located, h.arms⟩, ?_⟩, h.regions⟩
    by_cases hzero : origin.scopeId = 0
    · exact Or.inl hzero
    · exact Or.inr (h.scope hzero)

/-- What `validateV2Core` checks. -/
structure DebugInfo.Core (info : DebugInfo) : Prop where
  named : info.sourceFilename ≠ ""
  sources : ∀ (pc : ℕ) (location : SourceLocation),
    info.pcToSource[pc]? = some location → location.isValid
  functions : ∀ (name : String) (function : FunctionDebugInfo),
    info.functions[name]? = some function →
      function.startPC ≤ function.endPC ∧
      (∀ variable_ ∈ function.parameters, validVariableRanges variable_) ∧
      ∀ variable_ ∈ function.localVars, validVariableRanges variable_
  scopes : ∀ scope ∈ info.scopes, scope.scopeId ≠ 0 ∧
    (∀ variable_ ∈ scope.variableList, validVariableRanges variable_) ∧
    ∀ parent, scope.parent = some parent → parent < info.scopes.length
  ids : (info.scopes.map (·.scopeId)).Nodup
  rooted : ∀ index < info.scopes.length,
    (parentChain (info.scopes.map (·.parent)) info.scopes.length index).isSome
  instructions : ∀ (pc : ℕ) (instruction : InstructionDebugInfo),
    info.instructions[pc]? = some instruction → instruction.pc = pc ∧
      ∀ origin ∈ instruction.origins,
        OriginCore info.instructions (info.scopes.map (·.scopeId)) pc origin
  variableMap : ∀ (name : String) (variable_ : VariableDebugInfo),
    info.variableMap[name]? = some variable_ → validVariableRanges variable_

theorem forall_mem_toList_iff {κ : Type} [Ord κ] [Std.TransOrd κ] [Std.LawfulEqOrd κ]
    {map : Std.ExtTreeMap κ α} {p : κ × α → Prop} :
    (∀ entry ∈ map.toList, p entry) ↔ ∀ (k : κ) (v : α), map[k]? = some v → p (k, v) := by
  constructor
  · intro h k v hget
    exact h (k, v) (Std.ExtTreeMap.mem_toList_iff_getElem?_eq_some.mpr hget)
  · rintro h ⟨k, v⟩ hmem
    exact h k v (Std.ExtTreeMap.mem_toList_iff_getElem?_eq_some.mp hmem)

theorem validateV2Core_iff : info.validateV2Core = true ↔ info.Core := by
  unfold DebugInfo.validateV2Core
  simp only [Bool.and_eq_true, bne_iff_ne, decide_eq_true_eq, List.all_eq_true,
    forall_mem_toList_iff, beq_iff_eq, validOrigin_iff, List.mem_range, Option.all_eq_true]
  constructor
  · rintro ⟨⟨⟨⟨⟨⟨⟨h₁, h₂⟩, h₃⟩, h₄⟩, h₅⟩, h₆⟩, h₇⟩, h₈⟩
    exact ⟨h₁, h₂, fun name function hget => and_assoc.mp (h₃ name function hget),
      fun scope hmem => and_assoc.mp (h₄ scope hmem), h₅, h₆, h₇, h₈⟩
  · intro h
    exact ⟨⟨⟨⟨⟨⟨⟨h.named, h.sources⟩,
      fun name function hget => and_assoc.mpr (h.functions name function hget)⟩,
      fun scope hmem => and_assoc.mpr (h.scopes scope hmem)⟩, h.ids⟩, h.rooted⟩, h.instructions⟩,
      h.variableMap⟩

/-- What passes the validation of the second version. -/
structure DebugInfo.Valid (info : DebugInfo) : Prop where
  version : info.version = "2.0"
  checked : info.validate = .ok ()

theorem DebugInfo.validate_iff :
    info.validate = .ok () ↔ info.scopeNestingValid = true ∧ info.Core := by
  rw [← validateV2Core_iff]
  unfold DebugInfo.validate
  cases info.scopeNestingValid <;> cases info.validateV2Core <;> simp

structure SourceLocation.Small (location : SourceLocation) : Prop where
  line : location.line < 2 ^ 31
  column : location.column < 2 ^ 31

/-- The line and the column of the declaration fit. -/
structure VariableDebugInfo.Small (variable_ : VariableDebugInfo) : Prop where
  line : variable_.declLine < 2 ^ 31
  column : variable_.declColumn < 2 ^ 31

/-- The numbers that are read as an `int` fit. -/
structure DebugInfo.Small (info : DebugInfo) : Prop where
  sources : ∀ (pc : ℕ) (location : SourceLocation),
    info.pcToSource[pc]? = some location → location.Small
  instructions : ∀ (pc : ℕ) (instruction : InstructionDebugInfo),
    info.instructions[pc]? = some instruction →
      instruction.pc < 2 ^ 31 ∧ instruction.location.Small ∧
      ∀ origin ∈ instruction.origins, origin.location.Small
  functions : ∀ (name : String) (function : FunctionDebugInfo),
    info.functions[name]? = some function →
      (function.startPC < 2 ^ 31 ∧ function.endPC < 2 ^ 31 ∧ function.location.Small) ∧
      (∀ variable_ ∈ function.parameters, variable_.Small) ∧
      ∀ variable_ ∈ function.localVars, variable_.Small
  scopes : ∀ scope ∈ info.scopes,
    (scope.startPC < 2 ^ 31 ∧ scope.endPC < 2 ^ 31 ∧ scope.location.Small) ∧
    (∀ range ∈ effectiveRanges scope, range.lower < 2 ^ 31 ∧ range.upper < 2 ^ 31) ∧
    ∀ variable_ ∈ scope.variableList, variable_.Small
  variableMap : ∀ (name : String) (variable_ : VariableDebugInfo),
    info.variableMap[name]? = some variable_ → variable_.Small

theorem readInt_of_lt {n : ℕ} (h : n < 2 ^ 31) : readInt n = n := by
  have hmod : n % 2 ^ 32 = n := Nat.mod_eq_of_lt (by omega)
  rw [readInt, hmod, if_pos h]

theorem loadLocation_of_small {location : SourceLocation} (h : location.Small) :
    loadLocation location = location := by
  rw [loadLocation, readInt_of_lt h.line, readInt_of_lt h.column]

theorem availabilityRanges_of_valid (h : validVariableRanges variable_ = true) :
    (if variable_.hasExplicitAvailability then variable_.availabilityRanges else []) =
      variable_.availabilityRanges := by
  unfold validVariableRanges at h
  cases hexplicit : variable_.hasExplicitAvailability with
  | true => rfl
  | false =>
      rw [hexplicit] at h
      exact (List.isEmpty_iff.mp h).symm

theorem loadVariable_of_small (h : variable_.Small)
    (hvalid : validVariableRanges variable_ = true) : loadVariable variable_ = variable_ := by
  rw [loadVariable, readInt_of_lt h.line, readInt_of_lt h.column, availabilityRanges_of_valid hvalid]

/-! ### The copy of the scopes -/

/-- A scope with the given ranges, and their envelope where there is one. -/
def ScopeDebugInfo.withEnvelope (scope : ScopeDebugInfo) (ranges : List PCRange) : ScopeDebugInfo :=
  { scope with
    ranges
    startPC := (ranges.head?.map (·.lower)).getD scope.startPC
    endPC := (ranges.getLast?.map (·.upper)).getD scope.endPC }

theorem addRange_withEnvelope {ranges : List PCRange} {range : PCRange}
    (h : HalfOpen.Normal (ranges ++ [range])) :
    (scope.withEnvelope ranges).addRange range = scope.withEnvelope (ranges ++ [range]) := by
  have hopen : ¬ range.upper ≤ range.lower := by
    have := h.nonempty range (by simp)
    omega
  unfold ScopeDebugInfo.addRange
  rw [if_neg hopen]
  unfold ScopeDebugInfo.withEnvelope
  simp only [h.normalize_eq, List.getLast?_concat]
  cases ranges <;> simp

theorem foldl_addRange {ranges others : List PCRange} (h : HalfOpen.Normal (ranges ++ others)) :
    others.foldl ScopeDebugInfo.addRange (scope.withEnvelope ranges) =
      scope.withEnvelope (ranges ++ others) := by
  induction others generalizing ranges with
  | nil => simp
  | cons range others ih =>
      have hsplit : ranges ++ range :: others = ranges ++ [range] ++ others := by simp
      rw [hsplit] at h
      have hfirst : HalfOpen.Normal (ranges ++ [range]) :=
        ⟨fun other hother => h.nonempty other (List.mem_append_left _ hother),
          (List.pairwise_append.mp h.gaps).1⟩
      rw [List.foldl_cons, addRange_withEnvelope hfirst, ih h, hsplit]

theorem normal_effectiveRanges (scope : ScopeDebugInfo) : HalfOpen.Normal (effectiveRanges scope) := by
  unfold effectiveRanges
  split_ifs with hranges hopen
  · exact (HalfOpen.normalize_spec _).1
  · exact ⟨by simpa using hopen, List.pairwise_singleton _ _⟩
  · exact HalfOpen.normal_nil

/-- The numbers of a scope that are read as an `int` fit. -/
def ScopeDebugInfo.Small (scope : ScopeDebugInfo) : Prop :=
  (scope.startPC < 2 ^ 31 ∧ scope.endPC < 2 ^ 31 ∧ scope.location.Small) ∧
    (∀ range ∈ effectiveRanges scope, range.lower < 2 ^ 31 ∧ range.upper < 2 ^ 31) ∧
    ∀ variable_ ∈ scope.variableList, variable_.Small

theorem loadRanges_of_small (h : scope.Small) :
    loadRanges scope = scope.withEnvelope (effectiveRanges scope) := by
  obtain ⟨⟨hstart, hend, _⟩, hranges, _⟩ := h
  have hread : ((effectiveRanges scope).map fun range =>
      (⟨readInt range.lower, readInt range.upper⟩ : PCRange)) = effectiveRanges scope := by
    conv_rhs => rw [← List.map_id (effectiveRanges scope)]
    refine List.map_congr_left ?_
    intro range hmem
    rw [readInt_of_lt (hranges range hmem).1, readInt_of_lt (hranges range hmem).2]
    rfl
  have hstarted : ({ scope with ranges := [], startPC := scope.startPC, endPC := scope.endPC } :
      ScopeDebugInfo) = scope.withEnvelope [] := rfl
  rw [loadRanges, hread, readInt_of_lt hstart, readInt_of_lt hend, hstarted, foldl_addRange]
  · rfl
  · exact normal_effectiveRanges scope

/-- The copy of a scope with an identifier. -/
def copyScope (scope : ScopeDebugInfo) : ScopeDebugInfo := loadScope scope.scopeId scope

/-- What the copy of a scope is. -/
theorem copyScope_eq (h : scope.Small) : copyScope scope =
      { scope.withEnvelope (effectiveRanges scope) with
        ranges :=
          if effectiveRanges scope = [] ∧ scope.startPC < scope.endPC then
            [⟨scope.startPC, scope.endPC⟩]
          else effectiveRanges scope
        variableList := scope.variableList.map (loadScopeVariable scope.scopeId scope.name) } := by
  unfold copyScope loadScope
  rw [loadRanges_of_small h, loadLocation_of_small h.1.2.2]
  unfold ScopeDebugInfo.withEnvelope
  by_cases hnil : effectiveRanges scope = []
  · simp [hnil]
  · simp [hnil]

theorem loadScopeIds_of_ne (h : ∀ scope ∈ scopes, scope.scopeId ≠ 0)
    (next : ℕ) : loadScopeIds next scopes = scopes.map (·.scopeId) := by
  induction scopes generalizing next with
  | nil => rfl
  | cons scope scopes ih =>
      rw [loadScopeIds, if_neg (h scope List.mem_cons_self),
        ih (fun other hother => h other (List.mem_cons_of_mem _ hother)), List.map_cons]

theorem eq_of_scopeId_eq (hids : (scopes.map (·.scopeId)).Nodup)
    {i j : ℕ} (hi : i < scopes.length) (hj : j < scopes.length)
    (h : scopes[i].scopeId = scopes[j].scopeId) : i = j := by
  have hi' : i < (scopes.map (·.scopeId)).length := by simpa using hi
  have hj' : j < (scopes.map (·.scopeId)).length := by simpa using hj
  have hsame : (scopes.map (·.scopeId))[i] = (scopes.map (·.scopeId))[j] := by simpa using h
  exact hids.getElem_inj_iff.mp hsame

theorem DebugInfo.Core.resolveParent_eq (h : info.Core) (hscope : scope ∈ info.scopes) :
    resolveParent info.scopes (info.scopes.map (·.scopeId)) scope = some scope.parent := by
  unfold resolveParent
  cases hparent : scope.parent with
  | none => rfl
  | some parent =>
      have hlt := (h.scopes scope hscope).2.2 parent hparent
      have hget : info.scopes[parent]? = some info.scopes[parent] := List.getElem?_eq_getElem hlt
      have hne := (h.scopes _ (List.getElem_mem hlt)).1
      have hidx : (info.scopes.map (·.scopeId)).idxOf? info.scopes[parent].scopeId = some parent := by
        refine List.idxOf?_eq_some_iff.mpr ⟨by simpa using hlt, by simp, ?_⟩
        intro other hother heq
        exact Nat.ne_of_lt hother
          (eq_of_scopeId_eq h.ids (Nat.lt_trans hother hlt) hlt (by simpa using heq))
      simp only [hget, hne, ne_eq, not_false_eq_true, if_true, hidx, Option.map_some]

theorem zip_map_map {β γ δ : Type} (f : α → β) (g : α → γ) (combine : α × β × γ → δ)
    (list : List α) :
    (list.zip ((list.map f).zip (list.map g))).map combine =
      list.map fun a => combine (a, f a, g a) := by
  induction list with
  | nil => rfl
  | cons a list ih =>
      simp only [List.map_cons, List.zip_cons_cons, ih]

theorem loadScope_parent (id : ℕ) (scope : ScopeDebugInfo) :
    (loadScope id scope).parent = scope.parent := by
  have hfold : ∀ (ranges : List PCRange) (scope : ScopeDebugInfo),
      (ranges.foldl ScopeDebugInfo.addRange scope).parent = scope.parent := by
    intro ranges
    induction ranges with
    | nil => exact fun _ => rfl
    | cons range ranges ih =>
        intro scope
        rw [List.foldl_cons, ih]
        unfold ScopeDebugInfo.addRange
        split <;> rfl
  exact hfold _ _

/-- The scopes are read in their places, with their parents. -/
theorem DebugInfo.Core.loadScopes_eq (h : info.Core) :
    loadScopes info.scopes = some (info.scopes.map copyScope) := by
  have hids : loadScopeIds 1 info.scopes = info.scopes.map (·.scopeId) :=
    loadScopeIds_of_ne (fun scope hscope => (h.scopes scope hscope).1) 1
  have hparents : info.scopes.mapM (resolveParent info.scopes (info.scopes.map (·.scopeId))) =
      some (info.scopes.map (·.parent)) :=
    List.mapM_eq_some_map fun scope hscope => h.resolveParent_eq hscope
  have hrooted : ((List.range info.scopes.length).all fun index =>
      (parentChain (info.scopes.map (·.parent)) info.scopes.length index).isSome) = true := by
    rw [List.all_eq_true]
    intro index hindex
    exact h.rooted index (List.mem_range.mp hindex)
  have hcopy : ∀ scope : ScopeDebugInfo,
      { loadScope scope.scopeId scope with parent := scope.parent } = copyScope scope := by
    intro scope
    rw [← loadScope_parent scope.scopeId scope]
    rfl
  unfold loadScopes
  rw [hids]
  simp only [h.ids, not_true_eq_false, if_false, hparents, Option.bind_eq_bind, Option.bind_some,
    hrooted, if_true, zip_map_map, hcopy]

/-- The form of a scope that reading establishes: its ranges are normal, its first and last place
are their envelope, and its variables know the scope. -/
structure CanonicalScope (scope : ScopeDebugInfo) : Prop where
  ranges : scope.ranges = [] ∧ scope.endPC ≤ scope.startPC ∨
    scope.ranges ≠ [] ∧ HalfOpen.Normal scope.ranges ∧
      scope.ranges.head?.map (·.lower) = some scope.startPC ∧
      scope.ranges.getLast?.map (·.upper) = some scope.endPC
  variableList : ∀ variable_ ∈ scope.variableList, variable_.scopeId ≠ 0 ∧
    (variable_.scopeName = "" → scope.name = "")

theorem loadScopeVariable_eq_self_iff (hid : id ≠ 0) (h : variable_.Small)
    (hvalid : validVariableRanges variable_ = true) :
    loadScopeVariable id name variable_ = variable_ ↔
      variable_.scopeId ≠ 0 ∧ (variable_.scopeName = "" → name = "") := by
  unfold loadScopeVariable
  rw [loadVariable_of_small h hvalid]
  constructor
  · intro heq
    have hscope := congrArg VariableDebugInfo.scopeId heq
    have hname := congrArg VariableDebugInfo.scopeName heq
    refine ⟨?_, ?_⟩
    · intro hzero
      simp only [hzero, if_true] at hscope
      exact hid hscope
    · intro hempty
      simpa [hempty] using hname
  · rintro ⟨hne, hname⟩
    have hscopeName : (if variable_.scopeName = "" then name else variable_.scopeName) =
        variable_.scopeName := by
      split_ifs with hempty
      · rw [hempty, hname hempty]
      · rfl
    simp only [if_neg hne, hscopeName]

theorem map_eq_self_iff {f : α → α} {list : List α} : list.map f = list ↔ ∀ a ∈ list, f a = a := by
  conv_lhs => rhs; rw [← List.map_id list]
  rw [List.map_inj_left]
  rfl

theorem copyScope_eq_self_iff (hsmall : scope.Small) (hid : scope.scopeId ≠ 0)
    (hvalid : ∀ variable_ ∈ scope.variableList, validVariableRanges variable_ = true) :
    copyScope scope = scope ↔ CanonicalScope scope := by
  have hlist : scope.variableList.map (loadScopeVariable scope.scopeId scope.name) =
      scope.variableList ↔ ∀ variable_ ∈ scope.variableList, variable_.scopeId ≠ 0 ∧
        (variable_.scopeName = "" → scope.name = "") := by
    rw [map_eq_self_iff]
    refine forall₂_congr ?_
    intro variable_ hmem
    exact loadScopeVariable_eq_self_iff hid (hsmall.2.2 variable_ hmem) (hvalid variable_ hmem)
  rw [copyScope_eq hsmall]
  constructor
  · intro heq
    have hranges := congrArg ScopeDebugInfo.ranges heq
    have hstart := congrArg ScopeDebugInfo.startPC heq
    have hend := congrArg ScopeDebugInfo.endPC heq
    refine ⟨?_, hlist.mp (congrArg ScopeDebugInfo.variableList heq)⟩
    simp only [ScopeDebugInfo.withEnvelope] at hranges hstart hend
    by_cases hnil : effectiveRanges scope = []
    · refine Or.inl ?_
      by_cases hopen : scope.startPC < scope.endPC
      -- the range that is made up is the only one, so there was one
      · rw [if_pos ⟨hnil, hopen⟩] at hranges
        have hnormal : HalfOpen.Normal scope.ranges := by
          rw [← hranges]
          exact ⟨by simpa using hopen, List.pairwise_singleton _ _⟩
        have hne : scope.ranges ≠ [] := by
          rw [← hranges]
          simp
        rw [effectiveRanges, if_pos hne, hnormal.normalize_eq] at hnil
        exact absurd hnil hne
      · rw [if_neg fun h => hopen h.2, hnil] at hranges
        exact ⟨hranges.symm, Nat.le_of_not_lt hopen⟩
    · rw [if_neg fun h => hnil h.1] at hranges
      rw [hranges] at hstart hend
      have hne : scope.ranges ≠ [] := hranges ▸ hnil
      refine Or.inr ⟨hne, hranges ▸ normal_effectiveRanges scope, ?_, ?_⟩
      · rw [List.head?_eq_some_head hne] at hstart ⊢
        exact congrArg some hstart
      · rw [List.getLast?_eq_some_getLast hne] at hend ⊢
        exact congrArg some hend
  · intro h
    rw [hlist.mpr h.variableList]
    rcases h.ranges with ⟨hnil, hle⟩ | ⟨hne, hnormal, hstart, hend⟩
    · have heffective : effectiveRanges scope = [] := by
        rw [effectiveRanges, if_neg (by simp [hnil]), if_neg (by omega)]
      rw [heffective, if_neg (by omega)]
      cases scope
      obtain rfl := hnil
      rfl
    · have heffective : effectiveRanges scope = scope.ranges := by
        rw [effectiveRanges, if_pos hne, hnormal.normalize_eq]
      rw [heffective, if_neg fun h => hne h.1]
      unfold ScopeDebugInfo.withEnvelope
      simp [hstart, hend]

/-! ### The copy of the functions -/

/-- The numbers of a function that are read as an `int` fit. -/
def FunctionDebugInfo.Small (function : FunctionDebugInfo) : Prop :=
  (function.startPC < 2 ^ 31 ∧ function.endPC < 2 ^ 31 ∧ function.location.Small) ∧
    (∀ variable_ ∈ function.parameters, variable_.Small) ∧
    ∀ variable_ ∈ function.localVars, variable_.Small

/-- The form of a function that reading establishes: its parameters are marked, it has the
identifier of its scope, and where it has no scope none has its identifier or is a function scope of
its name that begins with it. -/
structure CanonicalFunction (scopes : List ScopeDebugInfo) (function : FunctionDebugInfo) : Prop where
  parameters : ∀ parameter ∈ function.parameters, parameter.isParameter = true
  linked : ∀ index, function.scope = some index →
    (scopes[index]?).map (·.scopeId) = some function.scopeId
  unlinked : function.scope = none → ∀ scope ∈ scopes, scope.scopeId ≠ function.scopeId ∧
    ¬ (scope.type = .function ∧ scope.name = function.name ∧ scope.startPC = function.startPC)

theorem findIdx?_scopeId (hids : (scopes.map (·.scopeId)).Nodup) (hlt : index < scopes.length) :
    scopes.findIdx? (·.scopeId == scopes[index].scopeId) = some index := by
  refine List.findIdx?_eq_some_iff_getElem.mpr ⟨hlt, by simp, ?_⟩
  intro other hother heq
  exact Nat.ne_of_lt hother
    (eq_of_scopeId_eq hids (Nat.lt_trans hother hlt) hlt (by simpa using heq))

theorem linkScope_of_getElem? (hids : (scopes.map (·.scopeId)).Nodup) (hne : id ≠ 0)
    (hget : (scopes[index]?).map (·.scopeId) = some id) (name : String) (startPC : ℕ) :
    linkScope scopes id name startPC = (some index, id) := by
  obtain ⟨scope, hscope, rfl⟩ := Option.map_eq_some_iff.mp hget
  obtain ⟨hlt, rfl⟩ := List.getElem?_eq_some_iff.mp hscope
  rw [linkScope, if_neg hne, findIdx?_scopeId hids hlt]

/-- A scope that is linked has the identifier of the link. -/
theorem getElem?_of_linkScope {id' : ℕ}
    {startPC : ℕ} (h : linkScope scopes id name startPC = (some index, id')) :
    (scopes[index]?).map (·.scopeId) = some id' := by
  unfold linkScope at h
  split at h
  · rename_i found hfound
    obtain ⟨rfl, rfl⟩ : found = index ∧ id = id' := by simpa using h
    split_ifs at hfound with hzero
    obtain ⟨hlt, hid, _⟩ := List.findIdx?_eq_some_iff_getElem.mp hfound
    rw [List.getElem?_eq_getElem hlt, Option.map_some, eq_of_beq hid]
  · split at h
    · rename_i found hfound
      obtain ⟨rfl, rfl⟩ : found = index ∧ _ = id' := by simpa using h
      obtain ⟨hlt, _⟩ := List.findIdx?_eq_some_iff_getElem.mp hfound
      rw [List.getElem?_eq_getElem hlt]
      rfl
    · exact absurd h (by simp)

/-- Nothing is linked exactly if no scope has the identifier or fits the function. -/
theorem linkScope_eq_none_iff {id' : ℕ} {startPC : ℕ} :
    linkScope scopes id name startPC = (none, id') ↔ id = id' ∧
      ∀ scope ∈ scopes, (id ≠ 0 → scope.scopeId ≠ id) ∧
        ¬ (scope.type = .function ∧ scope.name = name ∧ scope.startPC = startPC) := by
  have hid : (if id = 0 then none else scopes.findIdx? (·.scopeId == id)) = none ↔
      ∀ scope ∈ scopes, id ≠ 0 → scope.scopeId ≠ id := by
    by_cases hzero : id = 0
    · simp [hzero]
    · rw [if_neg hzero, List.findIdx?_eq_none_iff]
      simp [hzero]
  have hname : (scopes.findIdx? fun scope =>
      scope.type == .function && scope.name == name && scope.startPC == startPC) = none ↔
      ∀ scope ∈ scopes,
        ¬ (scope.type = .function ∧ scope.name = name ∧ scope.startPC = startPC) := by
    rw [List.findIdx?_eq_none_iff]
    refine forall₂_congr ?_
    intro scope _
    rw [← Bool.not_eq_true, Bool.and_eq_true, Bool.and_eq_true, beq_iff_eq, beq_iff_eq, beq_iff_eq,
      and_assoc]
  constructor
  · intro h
    unfold linkScope at h
    split at h
    · exact absurd h (by simp)
    · rename_i hnone
      split at h
      · exact absurd h (by simp)
      · rename_i hnone'
        refine ⟨by simpa using h, ?_⟩
        intro scope hscope
        exact ⟨hid.mp hnone scope hscope, hname.mp hnone' scope hscope⟩
  · rintro ⟨rfl, h⟩
    rw [linkScope, hid.mpr fun scope hscope => (h scope hscope).1,
      hname.mpr fun scope hscope => (h scope hscope).2]

/-- The link of a function is read as itself exactly if it is canonical. -/
theorem linkScope_eq_self_iff
    (hids : (scopes.map (·.scopeId)).Nodup) (hne : ∀ scope ∈ scopes, scope.scopeId ≠ 0)
    (function : FunctionDebugInfo) :
    linkScope scopes (writtenScopeId scopes function) function.name function.startPC =
        (function.scope, function.scopeId) ↔
      (∀ index, function.scope = some index →
        (scopes[index]?).map (·.scopeId) = some function.scopeId) ∧
      (function.scope = none → ∀ scope ∈ scopes, scope.scopeId ≠ function.scopeId ∧
        ¬ (scope.type = .function ∧ scope.name = function.name ∧
          scope.startPC = function.startPC)) := by
  cases hscope : function.scope with
  | none =>
      have hwritten : writtenScopeId scopes function = function.scopeId := by
        simp [writtenScopeId, hscope]
      rw [hwritten, linkScope_eq_none_iff]
      constructor
      · rintro ⟨_, h⟩
        refine ⟨by simp, fun _ scope hmem => ⟨?_, (h scope hmem).2⟩⟩
        by_cases hzero : function.scopeId = 0
        · rw [hzero]
          exact hne scope hmem
        · exact (h scope hmem).1 hzero
      · rintro ⟨_, h⟩
        exact ⟨rfl, fun scope hmem => ⟨fun _ => (h rfl scope hmem).1, (h rfl scope hmem).2⟩⟩
  | some index =>
      constructor
      · intro h
        refine ⟨?_, by simp⟩
        rintro _ ⟨⟩
        exact getElem?_of_linkScope h
      · rintro ⟨h, _⟩
        have hget := h index rfl
        have hwritten : writtenScopeId scopes function = function.scopeId := by
          rw [writtenScopeId, hscope, Option.bind_some, hget, Option.getD_some]
        obtain ⟨scope, hscope', hid⟩ := Option.map_eq_some_iff.mp hget
        have hzero : function.scopeId ≠ 0 := hid ▸ hne scope (List.mem_of_getElem? hscope')
        rw [hwritten]
        exact linkScope_of_getElem? hids hzero hget _ _

theorem map_loadVariable {list : List VariableDebugInfo}
    (hsmall : ∀ variable_ ∈ list, variable_.Small)
    (hvalid : ∀ variable_ ∈ list, validVariableRanges variable_ = true) :
    list.map loadVariable = list := by
  refine map_eq_self_iff.mpr ?_
  intro variable_ hmem
  exact loadVariable_of_small (hsmall variable_ hmem) (hvalid variable_ hmem)

theorem loadFunction_eq_self_iff
    (hids : (scopes.map (·.scopeId)).Nodup) (hne : ∀ scope ∈ scopes, scope.scopeId ≠ 0)
    {function : FunctionDebugInfo} (hsmall : function.Small)
    (hparameters : ∀ variable_ ∈ function.parameters, validVariableRanges variable_ = true)
    (hlocals : ∀ variable_ ∈ function.localVars, validVariableRanges variable_ = true) :
    loadFunction scopes scopes function = function ↔ CanonicalFunction scopes function := by
  have hlocalVars := map_loadVariable hsmall.2.2 hlocals
  have hparameterList : function.parameters.map loadParameter = function.parameters ↔
      ∀ parameter ∈ function.parameters, parameter.isParameter = true := by
    rw [map_eq_self_iff]
    refine forall₂_congr ?_
    intro variable_ hmem
    rw [loadParameter, loadVariable_of_small (hsmall.2.1 variable_ hmem) (hparameters variable_ hmem)]
    constructor
    · intro heq
      rw [← heq]
    · intro heq
      rw [← heq]
  have hlink := linkScope_eq_self_iff hids hne function
  unfold loadFunction
  rw [readInt_of_lt hsmall.1.1, readInt_of_lt hsmall.1.2.1, loadLocation_of_small hsmall.1.2.2,
    hlocalVars]
  constructor
  · intro heq
    have hscope := congrArg FunctionDebugInfo.scope heq
    have hscopeId := congrArg FunctionDebugInfo.scopeId heq
    obtain ⟨hlinked, hunlinked⟩ := hlink.mp (Prod.ext hscope hscopeId)
    exact ⟨hparameterList.mp (congrArg FunctionDebugInfo.parameters heq), hlinked, hunlinked⟩
  · intro h
    simp only [hparameterList.mpr h.parameters, hlink.mpr ⟨h.linked, h.unlinked⟩]

/-! ### The copy of the instructions -/

/-- The numbers of an instruction that are read as an `int` fit. -/
def InstructionDebugInfo.Small (instruction : InstructionDebugInfo) : Prop :=
  instruction.pc < 2 ^ 31 ∧ instruction.location.Small ∧
    ∀ origin ∈ instruction.origins, origin.location.Small

theorem readInstruction_of_small (h : instruction.Small) : readInstruction instruction =
      { instruction with origins := uniqueOrigins instruction.origins } := by
  have horigins : instruction.origins.map readOrigin = instruction.origins := by
    refine map_eq_self_iff.mpr ?_
    intro origin hmem
    rw [readOrigin, loadLocation_of_small (h.2.2 origin hmem)]
  rw [readInstruction, readInt_of_lt h.1, loadLocation_of_small h.2.1, horigins]
  rfl

theorem mem_of_inferScope (h : inferScope scopes pc = some scope) : scope ∈ scopes := by
  have hfold : ∀ (entries : List (ScopeDebugInfo × ℕ)) (best : Option (ScopeDebugInfo × ℕ × ℕ)),
      (∀ entry ∈ entries, entry.1 ∈ scopes) → (∀ found, best = some found → found.1 ∈ scopes) →
      ∀ found, entries.foldl (betterScope scopes pc) best = some found → found.1 ∈ scopes := by
    intro entries
    induction entries with
    | nil => exact fun _ _ hbest => hbest
    | cons entry entries ih =>
        intro best hentries hbest
        refine ih _ (fun other hother => hentries other (List.mem_cons_of_mem _ hother)) ?_
        intro found hfound
        have hentry := hentries entry List.mem_cons_self
        unfold betterScope at hfound
        split at hfound
        · exact hbest found hfound
        · dsimp only at hfound
          split at hfound
          · obtain rfl := Option.some.inj hfound
            exact hentry
          · split at hfound
            · obtain rfl := Option.some.inj hfound
              exact hentry
            · exact hbest found hfound
  obtain ⟨found, hfound, rfl⟩ := Option.map_eq_some_iff.mp h
  refine hfold _ _ ?_ (by simp) found hfound
  intro entry hentry
  exact List.mem_of_getElem? (List.mem_zipIdx_iff_getElem?.mp hentry)

/-- The form of an origin that reading establishes: what can be inferred is there. -/
structure CanonicalOrigin (scopes : List ScopeDebugInfo) (functions : NameMap FunctionDebugInfo)
    (pc : ℕ) (origin : SourceOrigin) : Prop where
  originalPC : origin.originalPC ≠ none
  scope : origin.scopeId = 0 → inferScope scopes pc = none
  function : origin.functionName = "" →
    ∀ function, getFunctionAtPC functions pc = some function → function.name = ""

theorem completeOrigin_eq_self_iff (hne : ∀ scope ∈ scopes, scope.scopeId ≠ 0)
    :
    completeOrigin scopes functions pc origin = origin ↔
      CanonicalOrigin scopes functions pc origin := by
  constructor
  · intro heq
    refine ⟨?_, ?_, ?_⟩
    · intro hnone
      have hpc := congrArg SourceOrigin.originalPC heq
      rw [hnone] at hpc
      exact absurd hpc (by simp [completeOrigin])
    · intro hzero
      have hscope := congrArg SourceOrigin.scopeId heq
      simp only [completeOrigin, hzero, if_true] at hscope
      cases hinfer : inferScope scopes pc with
      | none => rfl
      | some scope =>
          rw [hinfer] at hscope
          exact absurd hscope (hne scope (mem_of_inferScope hinfer))
    · intro hempty function hfunction
      have hname := congrArg SourceOrigin.functionName heq
      simpa only [completeOrigin, hempty, if_true, hfunction, Option.map_some, Option.getD_some]
        using hname
  · intro h
    obtain ⟨original, horiginal⟩ := Option.ne_none_iff_exists'.mp h.originalPC
    have hscope : (if origin.scopeId = 0 then ((inferScope scopes pc).map (·.scopeId)).getD 0
        else origin.scopeId) = origin.scopeId := by
      split_ifs with hzero
      · rw [h.scope hzero, hzero]
        rfl
      · rfl
    have hname : (if origin.functionName = "" then
        ((getFunctionAtPC functions pc).map (·.name)).getD "" else origin.functionName) =
        origin.functionName := by
      split_ifs with hempty
      · rw [hempty]
        cases hfunction : getFunctionAtPC functions pc with
        | none => rfl
        | some function => exact h.function hempty function hfunction
      · rfl
    rw [completeOrigin, hscope, hname, horiginal, Option.getD_some, ← horiginal]

/-- The form of an instruction that reading establishes. -/
structure CanonicalInstruction (scopes : List ScopeDebugInfo)
    (functions : NameMap FunctionDebugInfo) (instruction : InstructionDebugInfo) : Prop where
  upgraded : instruction.origins = [] → instruction.location.isValid = false
  nodup : instruction.origins.Nodup
  origins : ∀ origin ∈ instruction.origins,
    CanonicalOrigin scopes functions instruction.pc origin
  primary : ∀ origin, instruction.origins.head? = some origin →
    instruction.location = origin.location ∧
      (instruction.affectedVars = [] → origin.affectedVars = [])

theorem upgradeInstruction_origins (scopes : List ScopeDebugInfo)
    (functions : NameMap FunctionDebugInfo) (instruction : InstructionDebugInfo) :
    (upgradeInstruction scopes functions instruction).origins =
      (upgradeOrigins instruction.pc instruction instruction.origins).map
        (completeOrigin scopes functions instruction.pc) := by
  unfold upgradeInstruction
  dsimp only
  split
  · rfl
  · rfl

theorem upgradeInstruction_of_canonical (hne : ∀ scope ∈ scopes, scope.scopeId ≠ 0)
    (h : CanonicalInstruction scopes functions instruction) :
    upgradeInstruction scopes functions instruction = instruction := by
  have hupgrade : upgradeOrigins instruction.pc instruction instruction.origins =
      instruction.origins := by
    unfold upgradeOrigins
    rw [if_neg]
    rintro ⟨hnil, hvalid⟩
    rw [h.upgraded hnil] at hvalid
    exact absurd hvalid (by simp)
  have horigins : instruction.origins.map (completeOrigin scopes functions instruction.pc) =
      instruction.origins := by
    refine map_eq_self_iff.mpr ?_
    intro origin hmem
    exact (completeOrigin_eq_self_iff hne).mpr (h.origins origin hmem)
  unfold upgradeInstruction
  simp only [hupgrade, horigins]
  split
  · rfl
  · rename_i first rest hcons
    obtain ⟨hlocation, hvars⟩ := h.primary first (by rw [hcons]; rfl)
    have haffected : (if instruction.affectedVars = [] then first.affectedVars
        else instruction.affectedVars) = instruction.affectedVars := by
      split_ifs with hnil
      · rw [hvars hnil, hnil]
      · rfl
    rw [haffected, ← hlocation]

theorem upgradeInstruction_eq_self_iff (hne : ∀ scope ∈ scopes, scope.scopeId ≠ 0)
    (hsmall : instruction.Small) :
    upgradeInstruction scopes functions (readInstruction instruction) = instruction ↔
      CanonicalInstruction scopes functions instruction := by
  rw [readInstruction_of_small hsmall]
  constructor
  · intro heq
    have horigins := congrArg InstructionDebugInfo.origins heq
    rw [upgradeInstruction_origins] at horigins
    dsimp only at horigins
    by_cases hnil : instruction.origins = []
    · refine ⟨?_, by simp [hnil], by simp [hnil], by simp [hnil]⟩
      intro _
      by_contra hvalid
      rw [Bool.not_eq_false] at hvalid
      rw [upgradeOrigins, if_pos ⟨by simp [hnil], hvalid⟩, hnil] at horigins
      exact absurd horigins (by simp)
    · have hkept : upgradeOrigins instruction.pc
          { instruction with origins := uniqueOrigins instruction.origins }
          (uniqueOrigins instruction.origins) = uniqueOrigins instruction.origins :=
        if_neg fun h => hnil (uniqueOrigins_eq_nil_iff.mp h.1)
      rw [hkept] at horigins
      -- no origin was dropped, so no two were the same
      have hlength : (uniqueOrigins instruction.origins).length = instruction.origins.length := by
        conv_rhs => rw [← horigins, List.length_map]
      have hsub : List.Subperm (uniqueOrigins instruction.origins) instruction.origins :=
        List.subperm_of_subset (uniqueOrigins_nodup _) fun origin hmem => mem_uniqueOrigins.mp hmem
      have hnodup : instruction.origins.Nodup :=
        (hsub.perm_of_length_le hlength.ge).nodup_iff.mp (uniqueOrigins_nodup _)
      have hunique := uniqueOrigins_eq_self_iff.mpr hnodup
      rw [hunique] at horigins heq
      refine ⟨fun h => absurd h hnil, hnodup, ?_, ?_⟩
      · intro origin hmem
        exact (completeOrigin_eq_self_iff hne).mp (map_eq_self_iff.mp horigins origin hmem)
      · intro first hfirst
        have hupgrade : upgradeOrigins instruction.pc instruction instruction.origins =
            instruction.origins := if_neg fun h => hnil h.1
        unfold upgradeInstruction at heq
        simp only [hupgrade, horigins] at heq
        split at heq
        · exact absurd ‹_› hnil
        · rename_i other rest hcons
          rw [hcons] at hfirst
          obtain rfl := Option.some.inj hfirst
          refine ⟨(congrArg InstructionDebugInfo.location heq).symm, ?_⟩
          intro hvars
          have haffected := congrArg InstructionDebugInfo.affectedVars heq
          simpa [hvars] using haffected
  · intro h
    rw [uniqueOrigins_eq_self_iff.mpr h.nodup]
    exact upgradeInstruction_of_canonical hne h

theorem getElem?_addLocations (instructions : PCMap InstructionDebugInfo)
    (pcToSource : PCMap SourceLocation) (pc : ℕ) :
    (addLocations instructions pcToSource)[pc]? =
      match (instructions[pc]?).filter (·.location.isValid) with
      | some instruction => some instruction.location
      | none => pcToSource[pc]? := by
  have hfill : addLocations instructions pcToSource =
      OrderedMap.fill (fun entry => if entry.2.location.isValid then some entry.1 else none)
        (fun _ entry => entry.2.location) instructions.toList pcToSource := by
    unfold addLocations OrderedMap.fill
    congr 1
    funext map entry
    by_cases hvalid : entry.2.location.isValid <;> simp [hvalid]
  rw [hfill, OrderedMap.getElem?_fill_keys
    (fun (_ : ℕ) (instruction : InstructionDebugInfo) => instruction.location.isValid)]
  cases (instructions[pc]?).filter (·.location.isValid) <;> rfl

theorem addLocations_eq_self_iff {instructions : PCMap InstructionDebugInfo}
    {pcToSource : PCMap SourceLocation} :
    addLocations instructions pcToSource = pcToSource ↔
      ∀ (pc : ℕ) (instruction : InstructionDebugInfo), instructions[pc]? = some instruction →
        instruction.location.isValid → pcToSource[pc]? = some instruction.location := by
  constructor
  · intro heq pc instruction hget hvalid
    rw [← heq, getElem?_addLocations, hget, Option.filter_some, if_pos hvalid]
  · intro h
    refine Std.ExtTreeMap.ext_getElem? ?_
    intro pc
    rw [getElem?_addLocations]
    cases hget : instructions[pc]? with
    | none => rfl
    | some instruction =>
        by_cases hvalid : instruction.location.isValid
        · rw [Option.filter_some, if_pos hvalid, h pc instruction hget hvalid]
        · rw [Option.filter_some, if_neg hvalid]

end ApcDebug

end AtomicProof
