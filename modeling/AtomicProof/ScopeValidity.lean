/-
Where `validateState` holds.

`validateState` of `src/src/bytecode/symtab.cpp` checks that the counters of the three stacks are right,
that every declared symbol has an entry, that the lists of saved alt stacks belong together and that the
frames begin within their lists.  Most operations keep all of this.  The others do so on a condition:
the renames clear the new name before they look for the old one, clearing an entry can end the list in
front of the frame, and `restoreSharedAltStack` puts back the counter of a main stack that may have
changed since.

Main definitions:

* `ScopeTable.Sound` — what the check demands of a table;
* `TableOp.Fits`, `ScopeOp.Fits` — the condition on an operation;
* `Session.Valid` — the invariant.

Main results:

* `ScopeTable.Kept.validateState_eq_none_iff` — the check is `Sound` and no more;
* `TableOp.sound_iff` — **an operation on a sound table leaves a sound one exactly where it fits**;
* `validateState_iff` — **the check holds along a run exactly where every operation fits**.
-/

import AtomicProof.ScopeSnapshots

set_option autoImplicit false

namespace AtomicProof

/-! ### The condition -/

def entryNames (scope : List (String × SymbolInfo)) : List String := scope.map Prod.fst

namespace ScopeTable

/-- What `validateState` demands of a table. -/
structure Sound (t : ScopeTable) : Prop where
  main : t.main.combinedStackSize = combinedStackSize t.main.content
  declared : ∀ name ∈ t.declaredSymbols, name ∈ entryNames t.currentScope
  sizes : t.savedCombinedStackSize.length = t.savedSharedAltStackElements.length
  bindFrame : t.activeBindSymbolStart ≤ t.bindSymbol.length
  scopeFrame : t.activeScopeEntryStart ≤ t.currentScope.length

/-- Where the scope has an entry of a name, the frame begins in front of its last entry. -/
def ErasureFits (t : ScopeTable) (name : String) : Prop :=
  name ∈ entryNames t.currentScope → t.activeScopeEntryStart < t.currentScope.length

/-- A rename leaves the frame within the entries, and the new name, if that is declared, with an entry:
another one of the same name, or the one that is renamed. -/
def RenameFits (accepts : SymbolInfo → Bool) (t : ScopeTable) (oldName newName : String) : Prop :=
  t.ErasureFits newName ∧
    (newName ∈ t.declaredSymbols →
      1 < (entryNames t.currentScope).count newName ∨
        oldName ≠ newName ∧
          ∃ info, t.currentScope.reverse.lookup oldName = some info ∧ accepts info = true)

/-- The entries of a name that are left when the innermost one of every name with a beginning goes. -/
def remaining (t : ScopeTable) (lead name : String) : ℕ :=
  (entryNames t.currentScope).count name - if startsWith lead name then 1 else 0

/-- A rename of a beginning leaves the frame within the entries, and every declared symbol with an entry
under its new name. -/
def PrefixFits (t : ScopeTable) (oldPrefix newPrefix : String) : Prop :=
  t.activeScopeEntryStart +
      ((entryNames t.currentScope).filter (startsWith newPrefix)).dedup.length ≤
    t.currentScope.length ∧
  ∀ name ∈ t.declaredSymbols,
    if startsWith oldPrefix name then
      0 < t.remaining newPrefix name ∨
        (if startsWith oldPrefix (exchange oldPrefix newPrefix name) then 1 else 0) <
          t.remaining newPrefix (exchange oldPrefix newPrefix name)
    else
      0 < t.remaining newPrefix name ∨ ∃ other, 0 < t.remaining newPrefix other ∧
        startsWith oldPrefix other = true ∧ exchange oldPrefix newPrefix other = name

end ScopeTable

/-- The condition on an operation on a table. -/
def TableOp.Fits (t : ScopeTable) : TableOp → Prop
  | .removeSymbol name => t.ErasureFits name
  | .renameSymbolEntry oldName newName => t.RenameFits (fun _ => true) oldName newName
  | .renameArraySymbol oldName newName =>
      t.RenameFits (fun info => info.arrayInfo.isSome) oldName newName
  | .renameCompoundSymbol oldName newName =>
      t.RenameFits (fun info => info.compoundInfo.isSome) oldName newName
  | _ => True

def ScopeOp.Fits (s : Session) : ScopeOp → Prop
  | .table op => op.Fits s.scope.currentSymtab
  | .moveTopToAlt => ∀ top ∈ s.scope.currentSymtab.main.content.head?,
      combinedStackSize (top :: s.scope.altStack.content) ≤ maxStackSize
  | .restoreSharedAltStack => ∀ size ∈ s.scope.currentSymtab.savedCombinedStackSize.head?,
      size = s.scope.currentSymtab.main.combinedStackSize
  | .renameEntriesByPrefix oldPrefix newPrefix =>
      oldPrefix = newPrefix ∨ oldPrefix = "" ∨
        s.scope.currentSymtab.PrefixFits oldPrefix newPrefix
  | _ => True

/-! ### The check -/

namespace ScopeTable

variable {t : ScopeTable} {alt : RootStack}

theorem accountingError_eq_none_iff {st : RootStack} {stackName : String} :
    accountingError st stackName = none ↔ st.combinedStackSize = combinedStackSize st.content := by
  unfold accountingError
  split_ifs with h
  · exact iff_of_false nofun h
  · exact iff_of_true rfl (not_not.1 h)

/-- **The check demands that the table is sound**, and nothing more of a table that is kept. -/
theorem Kept.validateState_eq_none_iff (h : t.Kept) (halt : alt.Accounted) :
    t.validateState alt = none ↔ t.Sound := by
  have hlengths : t.savedSharedAltStackElements.length = t.savedAltStackCombinedStackSize.length := by
    rw [h.saved, List.length_map]
  have hdeclared : (t.declaredSymbols.find? fun declared =>
      t.currentScope.all fun entry => entry.1 ≠ declared) = none ↔
        ∀ name ∈ t.declaredSymbols, name ∈ entryNames t.currentScope := by
    rw [List.find?_eq_none]
    simp [entryNames]
  unfold validateState
  rw [Option.or_eq_none_iff, Option.or_eq_none_iff, Option.or_eq_none_iff, Option.or_eq_none_iff,
    accountingError_eq_none_iff, accountingError_eq_none_iff, accountingError_eq_none_iff,
    Option.map_eq_none_iff, hdeclared]
  constructor
  · rintro ⟨hmain, -, -, hnames, hrest⟩
    split_ifs at hrest with hsizes hframes
    simp only [not_or, not_not, not_lt] at hsizes hframes
    exact ⟨hmain, hnames, hsizes.2.symm, hframes.1, hframes.2⟩
  · rintro ⟨hmain, hnames, hsizes, hbind, hscope⟩
    refine ⟨hmain, halt.size_eq, h.fixed.size_eq, hnames, ?_⟩
    rw [if_neg (by omega), if_neg (by omega)]

/-! ### The main stack -/

theorem combinedStackSize_of_data {content content' : List StackElement}
    (h : content'.map StackElement.data = content.map StackElement.data) :
    combinedStackSize content' = combinedStackSize content := by
  have hmemory : ∀ slots : List StackElement, slots.map StackElement.getMemoryUsage =
      (slots.map StackElement.data).map fun data => 32 + data.utf8ByteSize := by
    intro slots
    rw [List.map_map]
    rfl
  rw [combinedStackSize, combinedStackSize, hmemory, hmemory, h]

theorem data_renameTopToBottom (oldName newName : String) (slots : List StackElement) :
    (renameTopToBottom oldName newName slots).map StackElement.data =
      slots.map StackElement.data := by
  induction slots with
  | nil => rfl
  | cons slot slots ih =>
      rw [renameTopToBottom]
      split_ifs
      · rfl
      · rw [List.map_cons, List.map_cons, ih]

theorem data_relabel (pairs : List (String × String)) (slots : List StackElement) :
    (relabel pairs slots).map StackElement.data = slots.map StackElement.data := by
  induction pairs generalizing slots with
  | nil => rfl
  | cons pair pairs ih =>
      calc (relabel (pair :: pairs) slots).map StackElement.data
          = (renameTopToBottom pair.1 pair.2 slots).map StackElement.data := ih _
        _ = slots.map StackElement.data := data_renameTopToBottom _ _ _

theorem data_modify (newName : String) (position : ℕ) (slots : List StackElement) :
    (slots.modify position fun slot => { slot with name := newName }).map StackElement.data =
      slots.map StackElement.data := by
  induction slots generalizing position with
  | nil => rw [List.modify_nil]
  | cons slot slots ih =>
      cases position with
      | zero => rfl
      | succ position => rw [List.modify_succ_cons, List.map_cons, List.map_cons, ih]

theorem accounted_of_data {st : RootStack} (h : st.Accounted) {content : List StackElement}
    (hdata : content.map StackElement.data = st.content.map StackElement.data) :
    RootStack.Accounted { st with content := content } := by
  refine ⟨?_, ?_⟩
  · rw [combinedStackSize_of_data hdata]
    exact h.size_eq
  · rw [combinedStackSize_of_data hdata]
    exact h.le_max

theorem renameEntry_main {accepts : SymbolInfo → Bool} {update : SymbolInfo → SymbolInfo}
    {pairs : SymbolInfo → List (String × String)} (st : SymbolTable) (oldName newName : String) :
    (SymbolTable.renameEntry accepts update pairs st oldName newName).2.main.map StackElement.data =
      st.main.map StackElement.data := by
  unfold SymbolTable.renameEntry
  dsimp only
  split
  · rfl
  · split_ifs
    · exact data_relabel _ _
    · rfl

/-- **The operations on a table count its main stack**, whether or not they throw. -/
theorem accounted_main_apply (h : t.main.Accounted) (op : TableOp) :
    (op.apply t).2.main.Accounted := by
  -- picking and rolling share one operation
  have hperform : ∀ offset remove name,
      (t.performStackOperation offset remove name).2.main.Accounted := by
    intro offset remove name
    unfold performStackOperation
    split
    · exact h
    · exact h
    · split_ifs with hskip hremove
      · exact h
      · exact ScopeState.andThen_kept (h.erase offset) fun main hmain => hmain.push _
      · exact h.push _
  cases op with
  | push element => exact h.push element
  | pop =>
      simp only [TableOp.apply, ScopeTable.pop]
      split
      · exact h
      · exact h.pop
  | pick offset => exact hperform offset false _
  | roll offset => exact hperform offset true _
  | dropAt offset =>
      simp only [TableOp.apply, ScopeTable.dropAt]
      split
      · exact h
      · exact h
      · exact h.erase offset
  | erase index => exact h.erase index
  | swap index1 index2 =>
      simp only [TableOp.apply, ScopeTable.swap, RootStack.swap]
      split_ifs
      · exact h
      · refine ⟨?_, ?_⟩
        · dsimp only
          rw [StackForest.combinedStackSize_swapElements]
          exact h.size_eq
        · dsimp only
          rw [StackForest.combinedStackSize_swapElements]
          exact h.le_max
  | rename oldName newName => exact accounted_of_data h (data_renameTopToBottom _ _ _)
  | renameAtPosition position newName =>
      simp only [TableOp.apply, ScopeTable.renameAtPosition]
      split_ifs
      · exact h
      · exact accounted_of_data h (data_modify _ _ _)
  | defineSymbol name type modifiers =>
      simp only [TableOp.apply, ScopeTable.defineSymbol]
      split_ifs <;> exact h
  | defineArray name elementType size isFixedSize =>
      simp only [TableOp.apply, ScopeTable.defineArray]
      split_ifs <;> exact h
  | importExternalArrayView name elementType size isFixedSize =>
      simp only [TableOp.apply, ScopeTable.importExternalArrayView]
      split
      · split <;> exact h
      · exact h
  | defineCompoundType compoundInfo =>
      simp only [TableOp.apply, ScopeTable.defineCompoundType]
      split_ifs <;> exact h
  | renameSymbolEntry oldName newName =>
      have hdata : (t.picture.renameSymbolEntry oldName newName).2.main.map StackElement.data =
          t.main.content.map StackElement.data := renameEntry_main _ _ _
      exact accounted_of_data h hdata
  | renameArraySymbol oldName newName =>
      have hdata : (t.picture.renameArraySymbol oldName newName).2.main.map StackElement.data =
          t.main.content.map StackElement.data := renameEntry_main _ _ _
      exact accounted_of_data h hdata
  | renameCompoundSymbol oldName newName =>
      have hdata : (t.picture.renameCompoundSymbol oldName newName).2.main.map StackElement.data =
          t.main.content.map StackElement.data := renameEntry_main _ _ _
      exact accounted_of_data h hdata
  | _ => exact h

end ScopeTable

/-! ### The entries -/

section Entries

variable {scope outer inner : List (String × SymbolInfo)} {entry : String × SymbolInfo}
  {name other : String}

theorem entryNames_around : entryNames (outer ++ entry :: inner) =
    entryNames outer ++ entry.1 :: entryNames inner := by
  rw [entryNames, List.map_append, List.map_cons]
  rfl

theorem entryNames_updateLastEntry (update : SymbolInfo → SymbolInfo) :
    entryNames (updateLastEntry scope name update) = entryNames scope :=
  map_fst_updateLastEntry update

theorem length_entryNames : (entryNames scope).length = scope.length := List.length_map _

/-- Clearing a name takes one entry of it away. -/
theorem count_erase (other : String) :
    (entryNames (eraseScopeEntriesByKey scope name)).count other =
      (entryNames scope).count other - if name = other then 1 else 0 := by
  rcases clearedOf_erase scope name with
    ⟨hsame, hnone⟩ | ⟨outer, entry, inner, hscope, hentry, -, hcleared⟩
  · rw [hsame]
    split_ifs with hother
    · subst hother
      have habsent : name ∉ entryNames scope := by
        intro hmem
        obtain ⟨entry, hentry, hname⟩ := List.mem_map.1 hmem
        exact hnone entry hentry hname
      rw [List.count_eq_zero.2 habsent]
    · rfl
  · rw [hcleared, hscope, entryNames_around, hentry, entryNames, List.map_append, List.count_append,
      List.count_append, List.count_cons]
    simp only [beq_iff_eq]
    exact (Nat.add_sub_cancel _ _).symm.trans (by rw [Nat.add_assoc]; rfl)

theorem mem_erase (hne : name ≠ other) :
    other ∈ entryNames (eraseScopeEntriesByKey scope name) ↔ other ∈ entryNames scope := by
  rw [← List.count_pos_iff, count_erase, if_neg hne, Nat.sub_zero, List.count_pos_iff]

theorem mem_erase_self :
    name ∈ entryNames (eraseScopeEntriesByKey scope name) ↔ 1 < (entryNames scope).count name := by
  rw [← List.count_pos_iff, count_erase, if_pos rfl]
  omega

theorem length_cleared : (eraseScopeEntriesByKey scope name).length +
    (if name ∈ entryNames scope then 1 else 0) = scope.length := by
  rcases clearedOf_erase scope name with
    ⟨hsame, hnone⟩ | ⟨outer, entry, inner, hscope, hentry, -, hcleared⟩
  · have habsent : name ∉ entryNames scope := by
      intro hmem
      obtain ⟨entry, hentry, hname⟩ := List.mem_map.1 hmem
      exact hnone entry hentry hname
    rw [hsame, if_neg habsent]
    rfl
  · have hmem : name ∈ entryNames scope := by
      rw [hscope, entryNames_around, hentry]
      exact List.mem_append_right _ List.mem_cons_self
    rw [if_pos hmem, hcleared, hscope, List.length_append, List.length_append, List.length_cons,
      Nat.add_assoc]

end Entries

/-! ### The first elements of every key -/

section Firsts

variable {α : Type} {key : α → String} {picks : String → Bool}

/-- Erasing the first elements of the keys that are picked takes one of each. -/
theorem count_alterFirsts_erase (seen : List String) (l : List α) (name : String) :
    ((alterFirsts key picks (fun _ => none) seen l).map key).count name =
      (l.map key).count name - if picks name = true ∧ name ∉ seen then 1 else 0 := by
  induction l generalizing seen with
  | nil => rw [alterFirsts, List.map_nil, List.count_nil, Nat.zero_sub]
  | cons x rest ih =>
      rw [alterFirsts, List.map_cons, List.count_cons]
      by_cases hpicked : picks (key x) = true ∧ key x ∉ seen
      · rw [if_pos (by simpa using hpicked), Option.toList_none, List.nil_append, ih]
        by_cases hname : key x = name
        · subst hname
          simp [hpicked]
        · simp [hname, Ne.symm hname]
      · rw [if_neg (by simpa using hpicked), List.map_cons, List.count_cons, ih]
        by_cases hname : key x = name
        · subst hname
          rw [if_neg hpicked, Nat.sub_zero, Nat.sub_zero]
        · have hother : (key x == name) = false := by simpa using hname
          simp only [hother, Bool.false_eq_true, if_false, Nat.add_zero]

theorem length_alterFirsts_erase (seen : List String) (l : List α) :
    (alterFirsts key picks (fun _ => none) seen l).length +
        (((l.map key).filter picks).toFinset \ seen.toFinset).card = l.length := by
  induction l generalizing seen with
  | nil => simp [alterFirsts]
  | cons x rest ih =>
      rw [alterFirsts, List.map_cons, List.length_cons]
      by_cases hpicked : picks (key x) = true ∧ key x ∉ seen
      · have hset : ((key x :: (rest.map key).filter picks).toFinset \ seen.toFinset) =
            insert (key x)
              (((rest.map key).filter picks).toFinset \ (key x :: seen).toFinset) := by
          ext name
          simp only [List.toFinset_cons, Finset.mem_sdiff, Finset.mem_insert, List.mem_toFinset]
          by_cases hname : name = key x
          · subst hname
            simp [hpicked.2]
          · simp [hname]
        rw [if_pos (by simpa using hpicked), Option.toList_none, List.nil_append,
          List.filter_cons_of_pos hpicked.1, hset, Finset.card_insert_of_notMem (by simp),
          ← Nat.add_assoc, ih]
      · have hset : (((key x :: rest.map key).filter picks).toFinset \ seen.toFinset) =
            (((rest.map key).filter picks).toFinset \ seen.toFinset) := by
          by_cases hpicks : picks (key x) = true
          · rw [List.filter_cons_of_pos hpicks, List.toFinset_cons,
              Finset.insert_sdiff_of_mem _ (List.mem_toFinset.2 (by_contra fun hmem =>
                hpicked ⟨hpicks, hmem⟩))]
          · rw [List.filter_cons_of_neg hpicks]
        rw [if_neg (by simpa using hpicked), hset, List.length_cons, Nat.add_right_comm, ih]

/-- The keys alone are altered by what an alteration does to a key. -/
theorem map_alterFirsts {alter : α → Option α} {f : String → String}
    (halter : ∀ x, (alter x).map key = some (f (key x))) (seen : List String) (l : List α) :
    (alterFirsts key picks alter seen l).map key =
      alterFirsts id picks (fun name => some (f name)) seen (l.map key) := by
  induction l generalizing seen with
  | nil => rfl
  | cons x rest ih =>
      obtain ⟨altered, hsome, hkey⟩ := Option.map_eq_some_iff.1 (halter x)
      rw [List.map_cons, alterFirsts, alterFirsts]
      simp only [id_eq]
      split_ifs
      · rw [hsome, Option.toList_some, Option.toList_some, List.map_append, ih, List.map_singleton,
          hkey]
      · rw [List.map_cons, ih]

/-- The names when the first of every name that is picked gets another one: the others stay. -/
theorem mem_alterFirsts {f : String → String} (seen names : List String) (name : String) :
    name ∈ alterFirsts id picks (fun name => some (f name)) seen names ↔
      (∃ other ∈ names, (picks other = true ∧ other ∉ seen) ∧ f other = name) ∨
        name ∈ names ∧ (picks name = true → name ∈ seen ∨ 1 < names.count name) := by
  induction names generalizing seen with
  | nil => simp [alterFirsts]
  | cons first rest ih =>
      rw [alterFirsts]
      simp only [id_eq]
      have hcount : 0 < rest.count name ↔ name ∈ rest := List.count_pos_iff
      by_cases hpicked : picks first = true ∧ first ∉ seen
      · rw [if_pos (by simpa using hpicked), Option.toList_some, List.singleton_append,
          List.mem_cons, ih]
        by_cases hname : first = name
        · subst hname
          rw [List.count_cons_self]
          grind
        · rw [List.count_cons_of_ne hname]
          grind
      · rw [if_neg (by simpa using hpicked), List.mem_cons, ih]
        by_cases hname : first = name
        · subst hname
          grind
        · rw [List.count_cons_of_ne hname]
          grind

end Firsts

namespace ScopeTable

variable {t : ScopeTable} {oldPrefix newPrefix : String}

theorem count_eraseScopeEntriesByPrefix (t : ScopeTable) (lead name : String) :
    (entryNames (eraseScopeEntriesByPrefix t.currentScope lead)).count name =
      t.remaining lead name := by
  unfold entryNames eraseScopeEntriesByPrefix remaining
  rw [List.map_reverse, List.count_reverse, count_alterFirsts_erase, List.map_reverse,
    List.count_reverse]
  simp [entryNames]

theorem length_eraseScopeEntriesByPrefix (scope : List (String × SymbolInfo)) (lead : String) :
    (eraseScopeEntriesByPrefix scope lead).length +
      ((entryNames scope).filter (startsWith lead)).dedup.length = scope.length := by
  have h := @length_alterFirsts_erase _ Prod.fst (startsWith lead) [] scope.reverse
  have hsame : ((scope.reverse.map Prod.fst).filter (startsWith lead)).toFinset =
      ((entryNames scope).filter (startsWith lead)).toFinset := by
    ext name
    simp [entryNames]
  rw [List.toFinset_nil, Finset.sdiff_empty, hsame, List.card_toFinset, List.length_reverse] at h
  unfold eraseScopeEntriesByPrefix
  rw [List.length_reverse, h]

theorem length_alterFirsts_some {α : Type} {key : α → String} {picks : String → Bool}
    {alter : α → α} (seen : List String) (l : List α) :
    (alterFirsts key picks (fun x => some (alter x)) seen l).length = l.length := by
  induction l generalizing seen with
  | nil => rfl
  | cons x rest ih =>
      rw [alterFirsts]
      split_ifs
      · rw [Option.toList_some, List.singleton_append, List.length_cons, ih, List.length_cons]
      · rw [List.length_cons, ih, List.length_cons]

/-- The names after a rename of a beginning. -/
theorem mem_renameEntriesByPrefix (t : ScopeTable) (oldPrefix newPrefix name : String) :
    name ∈ entryNames (t.renameEntriesByPrefix oldPrefix newPrefix).currentScope ↔
      (∃ other, 0 < t.remaining newPrefix other ∧ startsWith oldPrefix other = true ∧
        exchange oldPrefix newPrefix other = name) ∨
      (if startsWith oldPrefix name then 1 else 0) < t.remaining newPrefix name := by
  have hkeys : entryNames (t.renameEntriesByPrefix oldPrefix newPrefix).currentScope =
      (alterFirsts id (startsWith oldPrefix)
        (fun other => some (exchange oldPrefix newPrefix other)) []
        (entryNames (eraseScopeEntriesByPrefix t.currentScope newPrefix).reverse)).reverse := by
    unfold renameEntriesByPrefix entryNames
    rw [List.map_reverse, @map_alterFirsts _ Prod.fst _ _ (exchange oldPrefix newPrefix)
      (fun entry => rfl)]
  have hmem : ∀ other,
      other ∈ entryNames (eraseScopeEntriesByPrefix t.currentScope newPrefix).reverse ↔
        0 < t.remaining newPrefix other := by
    intro other
    rw [← count_eraseScopeEntriesByPrefix, List.count_pos_iff, entryNames, entryNames,
      List.map_reverse, List.mem_reverse]
  have hcount : (entryNames (eraseScopeEntriesByPrefix t.currentScope newPrefix).reverse).count name =
      t.remaining newPrefix name := by
    rw [← count_eraseScopeEntriesByPrefix, entryNames, entryNames, List.map_reverse,
      List.count_reverse]
  rw [hkeys, List.mem_reverse, mem_alterFirsts]
  simp only [hmem, hcount, List.not_mem_nil, not_false_iff, and_true, false_or]
  refine or_congr (exists_congr fun other => Iff.rfl) ?_
  split_ifs with hname
  · constructor
    · rintro ⟨-, hmore⟩
      exact hmore hname
    · intro hmore
      exact ⟨by omega, fun _ => hmore⟩
  · constructor
    · rintro ⟨hsome, -⟩
      exact hsome
    · intro hsome
      exact ⟨hsome, fun h => absurd h hname⟩

theorem exchange_injective {name other : String} (hname : startsWith oldPrefix name = true)
    (hother : startsWith oldPrefix other = true)
    (h : exchange oldPrefix newPrefix name = exchange oldPrefix newPrefix other) : name = other := by
  obtain ⟨rest, hrest⟩ := List.isPrefixOf_iff_prefix.1 hname
  obtain ⟨rest', hrest'⟩ := List.isPrefixOf_iff_prefix.1 hother
  have htexts := congrArg String.toList h
  simp only [exchange, String.toList_append, String.toList_ofList, ← hrest, ← hrest',
    List.drop_left, List.append_cancel_left_eq] at htexts
  apply String.toList_injective
  rw [← hrest, ← hrest', htexts]

end ScopeTable

/-! ### Operations on a table -/

namespace ScopeTable

variable {t : ScopeTable}

theorem Sound.erasureFits_iff (h : t.Sound) {name : String} :
    t.ErasureFits name ↔
      t.activeScopeEntryStart ≤ (eraseScopeEntriesByKey t.currentScope name).length := by
  have hlength := @length_cleared t.currentScope name
  have hframe := h.scopeFrame
  unfold ErasureFits
  split_ifs at hlength with hmem
  · rw [imp_iff_right hmem]
    omega
  · exact iff_of_true (fun h => absurd h hmem) (by omega)

theorem Sound.removeSymbol_iff (h : t.Sound) (name : String) :
    (t.removeSymbol name).Sound ↔ t.ErasureFits name := by
  rw [h.erasureFits_iff]
  constructor
  · intro hsound
    exact hsound.scopeFrame
  · intro hfits
    refine ⟨h.main, ?_, h.sizes, h.bindFrame, hfits⟩
    intro other hother
    obtain ⟨hdeclared, hne⟩ := List.mem_filter.1 hother
    exact (mem_erase (Ne.symm (by simpa using hne))).2 (h.declared other hdeclared)

theorem mem_renameExistingInList {list : List String} {oldName newName name : String}
    (h : name ∈ renameExistingInList list oldName newName) :
    name ∈ list ∧ (name = oldName → oldName = newName) ∨ name = newName := by
  unfold renameExistingInList at h
  split_ifs at h with hsame hmem
  · exact .inl ⟨h, fun _ => hsame⟩
  · obtain ⟨hlist, hne⟩ := List.mem_filter.1 h
    exact .inl ⟨hlist, fun hold => absurd hold (by simpa using hne)⟩
  · obtain ⟨entry, hentry, hname⟩ := List.mem_map.1 h
    split_ifs at hname with hold
    · exact .inr hname.symm
    · subst hname
      exact .inl ⟨hentry, fun h => absurd h hold⟩

theorem finds_iff {accepts : SymbolInfo → Bool} {scope : List (String × SymbolInfo)}
    {oldName newName : String} (hne : oldName ≠ newName) :
    (∃ parts, lastEntry (eraseScopeEntriesByKey scope newName) oldName = some parts ∧
        accepts parts.2.1.2 = true) ↔
      ∃ info, scope.reverse.lookup oldName = some info ∧ accepts info = true := by
  rw [← lookup_erase hne, lookup_reverse]
  constructor
  · rintro ⟨parts, hlast, haccepts⟩
    exact ⟨_, by rw [hlast]; rfl, haccepts⟩
  · rintro ⟨info, hlookup, haccepts⟩
    obtain ⟨parts, hlast, rfl⟩ := Option.map_eq_some_iff.1 hlookup
    exact ⟨parts, hlast, haccepts⟩

/-- **A rename leaves a sound table exactly where it fits.** -/
theorem Sound.rename_iff (h : t.Sound) (accepts : SymbolInfo → Bool)
    (update : SymbolInfo → SymbolInfo) (pairs : SymbolInfo → List (String × String))
    (oldName newName : String) :
    (t.redraw (SymbolTable.renameEntry accepts update pairs t.picture oldName newName).2).Sound ↔
      t.RenameFits accepts oldName newName := by
  have hmain := combinedStackSize_of_data
    (@renameEntry_main accepts update pairs t.picture oldName newName)
  have hcounted := h.main.trans (congrArg Nat.cast hmain.symm)
  unfold RenameFits
  rw [h.erasureFits_iff]
  -- the entries under the new name are erased before the old one is looked for
  by_cases hfound : ∃ parts,
      lastEntry (eraseScopeEntriesByKey t.currentScope newName) oldName = some parts ∧
        accepts parts.2.1.2 = true
  · have hcond : newName ∈ t.declaredSymbols → 1 < (entryNames t.currentScope).count newName ∨
        oldName ≠ newName ∧
          ∃ info, t.currentScope.reverse.lookup oldName = some info ∧ accepts info = true := by
      intro _
      by_cases hne : oldName = newName
      · subst hne
        obtain ⟨⟨outer, entry, inner⟩, hlast, -⟩ := hfound
        obtain ⟨hcleared, hentry, -⟩ := lastEntry_eq_some.1 hlast
        left
        rw [← mem_erase_self, hcleared, entryNames_around, hentry]
        exact List.mem_append_right _ List.mem_cons_self
      · exact .inr ⟨hne, (finds_iff hne).1 hfound⟩
    rw [and_iff_left hcond]
    obtain ⟨⟨outer, entry, inner⟩, hlast, haccepts⟩ := hfound
    obtain ⟨hcleared, hentry, -⟩ := lastEntry_eq_some.1 hlast
    simp only at haccepts
    simp only [SymbolTable.renameEntry, picture, hlast, haccepts, if_true] at hcounted ⊢
    rw [hcleared]
    constructor
    · intro hsound
      have hframe := hsound.scopeFrame
      simp only [redraw, List.length_append, List.length_cons] at hframe ⊢
      exact hframe
    · intro hfits
      refine ⟨hcounted, ?_, h.sizes, h.bindFrame, ?_⟩
      · intro name hname
        show name ∈ entryNames (outer ++ (newName, _) :: inner)
        rw [entryNames_around]
        rcases mem_renameExistingInList hname with ⟨hdeclared, hold⟩ | rfl
        · by_cases hnew : name = newName
          · subst hnew
            exact List.mem_append_right _ List.mem_cons_self
          · have hleft := (mem_erase (Ne.symm hnew)).2 (h.declared name hdeclared)
            rw [hcleared, entryNames_around, hentry, List.mem_append, List.mem_cons] at hleft
            rcases hleft with houter | rfl | hinner
            · exact List.mem_append_left _ houter
            · exact absurd (hold rfl) hnew
            · exact List.mem_append_right _ (List.mem_cons_of_mem _ hinner)
        · exact List.mem_append_right _ List.mem_cons_self
      · simp only [redraw, List.length_append, List.length_cons] at hfits ⊢
        exact hfits
  -- nothing is renamed, and the erased entries stay erased
  · have hresult : SymbolTable.renameEntry accepts update pairs t.picture oldName newName =
        (false, { t.picture with
          currentScope := eraseScopeEntriesByKey t.currentScope newName }) := by
      unfold SymbolTable.renameEntry
      dsimp only
      split
      · rfl
      · rename_i outer entry inner hlast
        rw [if_neg fun haccepts => hfound ⟨_, hlast, haccepts⟩]
        rfl
    have hcond : (oldName ≠ newName ∧
        ∃ info, t.currentScope.reverse.lookup oldName = some info ∧ accepts info = true) ↔ False := by
      rw [iff_false]
      rintro ⟨hne, hinfo⟩
      exact hfound ((finds_iff hne).2 hinfo)
    rw [hresult, hcond, or_false]
    constructor
    · intro hsound
      refine ⟨hsound.scopeFrame, fun hdeclared => ?_⟩
      exact mem_erase_self.1 (hsound.declared newName hdeclared)
    · rintro ⟨hfits, hmore⟩
      refine ⟨h.main, ?_, h.sizes, h.bindFrame, hfits⟩
      intro name hdeclared
      by_cases hname : newName = name
      · subst hname
        exact mem_erase_self.2 (hmore hdeclared)
      · exact (mem_erase hname).2 (h.declared name hdeclared)

end ScopeTable

namespace ScopeTable

variable {t : ScopeTable}

/-- **A rename of a beginning leaves a sound table exactly where it fits.** -/
theorem Sound.renameEntriesByPrefix_iff (h : t.Sound) (oldPrefix newPrefix : String) :
    (t.renameEntriesByPrefix oldPrefix newPrefix).Sound ↔ t.PrefixFits oldPrefix newPrefix := by
  have hmain : (t.renameEntriesByPrefix oldPrefix newPrefix).main.combinedStackSize =
      combinedStackSize (t.renameEntriesByPrefix oldPrefix newPrefix).main.content :=
    h.main.trans (congrArg Nat.cast (ScopeState.combinedStackSize_renameByPrefix _ _ t.main).symm)
  have hframe : t.activeScopeEntryStart ≤
      (t.renameEntriesByPrefix oldPrefix newPrefix).currentScope.length ↔
        t.activeScopeEntryStart +
          ((entryNames t.currentScope).filter (startsWith newPrefix)).dedup.length ≤
            t.currentScope.length := by
    have hlength := length_eraseScopeEntriesByPrefix t.currentScope newPrefix
    unfold renameEntriesByPrefix
    dsimp only
    rw [List.length_reverse, length_alterFirsts_some, List.length_reverse]
    omega
  have hnames : (∀ name ∈ (t.renameEntriesByPrefix oldPrefix newPrefix).declaredSymbols,
      name ∈ entryNames (t.renameEntriesByPrefix oldPrefix newPrefix).currentScope) ↔
        ∀ name ∈ t.declaredSymbols,
          (if startsWith oldPrefix name then exchange oldPrefix newPrefix name else name) ∈
            entryNames (t.renameEntriesByPrefix oldPrefix newPrefix).currentScope :=
    List.forall_mem_map
  have hsound : (t.renameEntriesByPrefix oldPrefix newPrefix).Sound ↔
      t.activeScopeEntryStart ≤
          (t.renameEntriesByPrefix oldPrefix newPrefix).currentScope.length ∧
        ∀ name ∈ (t.renameEntriesByPrefix oldPrefix newPrefix).declaredSymbols,
          name ∈ entryNames (t.renameEntriesByPrefix oldPrefix newPrefix).currentScope :=
    ⟨fun hs => ⟨hs.scopeFrame, hs.declared⟩,
      fun hs => ⟨hmain, hs.2, h.sizes, h.bindFrame, hs.1⟩⟩
  rw [hsound, hframe, hnames, PrefixFits]
  refine and_congr_right fun _ => forall₂_congr fun name _ => ?_
  rw [mem_renameEntriesByPrefix]
  split_ifs with hname hagain
  · refine or_congr ?_ Iff.rfl
    constructor
    · rintro ⟨other, hremaining, hother, hsame⟩
      rwa [exchange_injective hother hname hsame] at hremaining
    · intro hremaining
      exact ⟨name, hremaining, hname, rfl⟩
  · refine or_congr ?_ Iff.rfl
    constructor
    · rintro ⟨other, hremaining, hother, hsame⟩
      rwa [exchange_injective hother hname hsame] at hremaining
    · intro hremaining
      exact ⟨name, hremaining, hname, rfl⟩
  · exact or_comm

end ScopeTable

namespace ScopeTable

variable {t t' : ScopeTable}

/-- The symbols and the frames are the same. -/
structure SameSymbols (t t' : ScopeTable) : Prop where
  declaredSymbols : t'.declaredSymbols = t.declaredSymbols
  currentScope : t'.currentScope = t.currentScope
  bindSymbol : t'.bindSymbol = t.bindSymbol
  bindStart : t'.activeBindSymbolStart = t.activeBindSymbolStart
  scopeStart : t'.activeScopeEntryStart = t.activeScopeEntryStart

theorem SameSymbols.refl (t : ScopeTable) : t.SameSymbols t := ⟨rfl, rfl, rfl, rfl, rfl⟩

theorem Sound.of_sameSymbols (h : t.Sound) (hsame : t.SameSymbols t') (hshares : t.Shares t')
    (hmain : t'.main.combinedStackSize = combinedStackSize t'.main.content) : t'.Sound := by
  refine ⟨hmain, ?_, ?_, ?_, ?_⟩
  · rw [hsame.declaredSymbols, hsame.currentScope]
    exact h.declared
  · rw [hshares.sizes, hshares.elements]
    exact h.sizes
  · rw [hsame.bindStart, hsame.bindSymbol]
    exact h.bindFrame
  · rw [hsame.scopeStart, hsame.currentScope]
    exact h.scopeFrame

theorem sameSymbols_performStackOperation (t : ScopeTable) (offset : ℤ) (remove : Bool)
    (name : String) : t.SameSymbols (t.performStackOperation offset remove name).2 := by
  unfold performStackOperation
  split
  · exact .refl t
  · exact .refl t
  · split_ifs
    · exact .refl t
    · exact ⟨rfl, rfl, rfl, rfl, rfl⟩
    · exact ⟨rfl, rfl, rfl, rfl, rfl⟩

theorem sameSymbols_pop (t : ScopeTable) : t.SameSymbols t.pop.2 := by
  unfold pop
  split
  · exact .refl t
  · exact ⟨rfl, rfl, rfl, rfl, rfl⟩

theorem sameSymbols_dropAt (t : ScopeTable) (offset : ℤ) : t.SameSymbols (t.dropAt offset).2 := by
  unfold dropAt
  split
  · exact .refl t
  · exact .refl t
  · exact ⟨rfl, rfl, rfl, rfl, rfl⟩

theorem sameSymbols_renameAtPosition (t : ScopeTable) (position : ℤ) (newName : String) :
    t.SameSymbols (t.renameAtPosition position newName).2 := by
  unfold renameAtPosition
  split_ifs
  · exact .refl t
  · exact ⟨rfl, rfl, rfl, rfl, rfl⟩

theorem Sound.declare (h : t.Sound) (name : String) (info : SymbolInfo) :
    (t.declare name info).Sound := by
  refine ⟨h.main, ?_, h.sizes, h.bindFrame, ?_⟩
  · intro other hother
    show other ∈ entryNames (t.currentScope ++ [(name, info)])
    rw [entryNames, List.map_append, List.mem_append]
    rcases List.mem_append.1 hother with hold | hnew
    · exact .inl (h.declared other hold)
    · exact .inr hnew
  · show t.activeScopeEntryStart ≤ (t.currentScope ++ [(name, info)]).length
    rw [List.length_append]
    exact Nat.le_add_right_of_le h.scopeFrame

theorem Sound.updateLastEntry (h : t.Sound) (name : String) (update : SymbolInfo → SymbolInfo) :
    Sound { t with currentScope := updateLastEntry t.currentScope name update } := by
  have hnames : entryNames (AtomicProof.updateLastEntry t.currentScope name update) =
      entryNames t.currentScope := entryNames_updateLastEntry update
  refine ⟨h.main, ?_, h.sizes, h.bindFrame, ?_⟩
  · intro declared hdeclared
    show declared ∈ entryNames (AtomicProof.updateLastEntry t.currentScope name update)
    rw [hnames]
    exact h.declared declared hdeclared
  · show t.activeScopeEntryStart ≤ (AtomicProof.updateLastEntry t.currentScope name update).length
    rw [← length_entryNames, hnames, length_entryNames]
    exact h.scopeFrame

theorem Sound.removeBindSymbol (h : t.Sound) (paramName : String) :
    (t.removeBindSymbol paramName).Sound := by
  refine ⟨h.main, h.declared, h.sizes, ?_, h.scopeFrame⟩
  show t.activeBindSymbolStart ≤ (t.bindSymbol.take t.bindStart ++
    (t.bindSymbol.drop t.bindStart).filter (·.1 ≠ paramName)).length
  have hframe := h.bindFrame
  rw [List.length_append, List.length_take, bindStart]
  omega

end ScopeTable

/-- **An operation on a sound table leaves a sound one exactly where it fits.** -/
theorem TableOp.sound_iff {t : ScopeTable} (h : t.Sound) (hmain : t.main.Accounted) (op : TableOp) :
    (op.apply t).2.Sound ↔ op.Fits t := by
  have hcounted := (ScopeTable.accounted_main_apply hmain op).size_eq
  have hshares := op.apply_shares t
  -- the operations that erase an entry have a condition, the others keep the table sound
  cases op with
  | removeSymbol name => exact h.removeSymbol_iff name
  | renameSymbolEntry oldName newName =>
      exact h.rename_iff (fun _ => true) id (fun _ => [(oldName, newName)]) oldName newName
  | renameArraySymbol oldName newName =>
      exact h.rename_iff (fun info => info.arrayInfo.isSome)
        (fun info => { info with arrayInfo := info.arrayInfo.map ({ · with name := newName }) })
        (fun info => (info.arrayInfo.map fun array => elementLabels array newName).getD [])
        oldName newName
  | renameCompoundSymbol oldName newName =>
      exact h.rename_iff (fun info => info.compoundInfo.isSome)
        (fun info =>
          { info with compoundInfo := info.compoundInfo.map ({ · with name := newName }) })
        (fun _ => [(oldName, newName)]) oldName newName
  | pop => exact iff_of_true (h.of_sameSymbols t.sameSymbols_pop hshares hcounted) trivial
  | pick offset =>
      have hsame := t.sameSymbols_performStackOperation offset false "PICK"
      exact iff_of_true (h.of_sameSymbols hsame hshares hcounted) trivial
  | roll offset =>
      have hsame := t.sameSymbols_performStackOperation offset true "ROLL"
      exact iff_of_true (h.of_sameSymbols hsame hshares hcounted) trivial
  | dropAt offset =>
      exact iff_of_true (h.of_sameSymbols (t.sameSymbols_dropAt offset) hshares hcounted) trivial
  | renameAtPosition position newName =>
      have hsame := t.sameSymbols_renameAtPosition position newName
      exact iff_of_true (h.of_sameSymbols hsame hshares hcounted) trivial
  | defineSymbol name type modifiers =>
      refine iff_of_true ?_ trivial
      simp only [TableOp.apply, ScopeTable.defineSymbol]
      split_ifs
      · exact h
      · exact h.declare _ _
  | defineArray name elementType size isFixedSize =>
      refine iff_of_true ?_ trivial
      simp only [TableOp.apply, ScopeTable.defineArray]
      split_ifs
      · exact h
      · exact h.declare _ _
  | defineCompoundType compoundInfo =>
      refine iff_of_true ?_ trivial
      simp only [TableOp.apply, ScopeTable.defineCompoundType]
      split_ifs
      · exact h
      · exact h.declare _ _
  | importExternalArrayView name elementType size isFixedSize =>
      refine iff_of_true ?_ trivial
      simp only [TableOp.apply, ScopeTable.importExternalArrayView]
      split
      · split <;> exact h
      -- the entry is not a declared symbol
      · have hdeclare := h.declare name { SymbolInfo.ofArray ⟨name, elementType, size, isFixedSize⟩ with
          isExternalArrayView := true }
        refine ⟨h.main, ?_, h.sizes, h.bindFrame, hdeclare.scopeFrame⟩
        intro other hother
        exact hdeclare.declared other (List.mem_append_left _ hother)
  | markCompoundTypeSplitted name => exact iff_of_true (h.updateLastEntry name _) trivial
  | markSymbolInitialized name => exact iff_of_true (h.updateLastEntry name _) trivial
  | addBindSymbol bindPair =>
      refine iff_of_true ⟨h.main, h.declared, h.sizes, ?_, h.scopeFrame⟩ trivial
      show t.activeBindSymbolStart ≤ (t.bindSymbol ++ [bindPair]).length
      rw [List.length_append]
      exact Nat.le_add_right_of_le h.bindFrame
  | removeBindSymbol paramName => exact iff_of_true (h.removeBindSymbol paramName) trivial
  | clearBindSymbols =>
      exact iff_of_true ⟨h.main, h.declared, h.sizes, le_rfl, h.scopeFrame⟩ trivial
  | beginBindSymbolFrame =>
      exact iff_of_true ⟨h.main, h.declared, h.sizes, le_rfl, h.scopeFrame⟩ trivial
  | restoreBindSymbolFrame start =>
      exact iff_of_true ⟨h.main, h.declared, h.sizes, min_le_right _ _, h.scopeFrame⟩ trivial
  | beginScopeEntryFrame =>
      exact iff_of_true ⟨h.main, h.declared, h.sizes, h.bindFrame, le_rfl⟩ trivial
  | restoreScopeEntryFrame start =>
      exact iff_of_true ⟨h.main, h.declared, h.sizes, h.bindFrame, min_le_right _ _⟩ trivial
  | _ => exact iff_of_true ⟨hcounted, h.declared, h.sizes, h.bindFrame, h.scopeFrame⟩ trivial

/-! ### The invariant -/

/-- The tables of a scope are sound, and the main stack of the current one fits. -/
structure ScopeState.Valid (s : ScopeState) : Prop where
  current : s.currentSymtab.Sound
  fits : s.currentSymtab.Fits
  enclosing : ∀ t ∈ s.symtabScopes, t.Sound

/-- The table of a snapshot is sound, also with the counter that is put back. -/
structure ControlFlowStateSnapshot.Valid (snapshot : ControlFlowStateSnapshot) : Prop where
  table : snapshot.symbolTable.Sound
  mainSize : snapshot.mainCombinedSize = combinedStackSize snapshot.symbolTable.main.content

/-- **The invariant of the runs along which the check holds.** -/
structure Session.Valid (s : Session) : Prop where
  kept : s.Kept
  scope : s.scope.Valid
  snapshots : ∀ snapshot ∈ s.snapshots, snapshot.Valid

namespace ScopeTable

variable {t : ScopeTable}

theorem Sound.empty (altStackPtr : ℕ) : Sound { altStackPtr := altStackPtr } :=
  ⟨rfl, nofun, rfl, le_rfl, le_rfl⟩

theorem Sound.accounted (h : t.Sound) (hfits : t.Fits) : t.main.Accounted := ⟨h.main, hfits⟩

theorem Sound.recounted (h : t.Sound) : t.recounted.Sound :=
  ⟨rfl, h.declared, h.sizes, h.bindFrame, h.scopeFrame⟩

theorem Sound.withMain (h : t.Sound) {main : RootStack}
    (hmain : main.combinedStackSize = combinedStackSize main.content) :
    Sound { t with main := main } := ⟨hmain, h.declared, h.sizes, h.bindFrame, h.scopeFrame⟩

end ScopeTable

namespace ScopeState

variable {s : ScopeState}

theorem Valid.setTable (h : s.Valid) {t : ScopeTable} (ht : t.Sound) (hfits : t.Fits) :
    (s.setTable t).Valid := ⟨ht, hfits, h.enclosing⟩

theorem Valid.setAltStack (h : s.Valid) (alt : RootStack) : (s.setAltStack alt).Valid :=
  ⟨h.current, h.fits, h.enclosing⟩

theorem Valid.settle (h : s.Valid) {main : RootStack} (hmain : main.Accounted) (alt : RootStack) :
    (s.settle main alt).Valid :=
  (h.setTable (h.current.withMain hmain.size_eq) hmain.le_max).setAltStack alt

theorem Valid.onTable (h : s.Valid) {op : TableOp} (hfits : op.Fits s.currentSymtab) :
    (s.onTable op.apply).2.Valid := by
  have hmain := h.current.accounted h.fits
  exact h.setTable ((TableOp.sound_iff h.current hmain op).2 hfits)
    (ScopeTable.accounted_main_apply hmain op).le_max

theorem Valid.accounted (h : s.Valid) : s.currentSymtab.main.Accounted := h.current.accounted h.fits

theorem Valid.setAlt (h : s.Valid) (symbolName : String) (moveOnlyMatch : Bool) :
    (s.setAlt symbolName moveOnlyMatch).2.2.Valid := by
  unfold ScopeState.setAlt
  split_ifs
  · split
    · exact h
    · rename_i num _
      have hroll : (s.setTable (s.currentSymtab.roll num).2).Valid :=
        @Valid.onTable s h (.roll num) trivial
      split
      · rename_i error t hrolled
        rw [hrolled] at hroll
        exact hroll
      · rename_i t hrolled
        rw [hrolled] at hroll
        have hpop : ((s.setTable t).setTable t.pop.2).Valid :=
          @Valid.onTable (s.setTable t) hroll .pop trivial
        split
        · rename_i t' hpopped
          rw [hpopped] at hpop
          exact hpop
        · rename_i top t' hpopped
          rw [hpopped] at hpop
          exact hpop.setAltStack _
  · exact h.settle h.accounted.transfer_source _

theorem Valid.saveSharedAltStack (h : s.Valid) : s.saveSharedAltStack.Valid := by
  refine h.setTable ⟨h.current.main, h.current.declared, ?_, h.current.bindFrame,
    h.current.scopeFrame⟩ h.fits
  exact congrArg (· + 1) h.current.sizes

theorem Valid.enterScope (h : s.Valid) (hkept : s.Kept) : s.enterScope.2.Valid := by
  unfold ScopeState.enterScope
  split
  · exact h
  · rename_i saved hcopy
    obtain ⟨hfits, rfl⟩ := hkept.current.copy_eq_ok_iff.1 hcopy
    refine ⟨⟨h.current.main, nofun, h.current.sizes, h.current.bindFrame,
      h.current.scopeFrame⟩, h.fits, ?_⟩
    exact List.forall_mem_cons.2 ⟨h.current.recounted, h.enclosing⟩

/-- The tables that are put back were sound. -/
theorem Valid.exitScope (h : s.Valid) (hkept : s.Kept) :
    s.exitScope.2.Valid ∧
      ∀ left, s.exitScope.1 = .ok left → left = s.currentSymtab.recounted := by
  cases hscopes : s.symtabScopes with
  | nil =>
      rw [hkept.exitScope_nil h.fits hscopes]
      refine ⟨⟨.empty _, Nat.zero_le _, ?_⟩, fun left hok => ?_⟩
      · simp [ScopeState.setTable, hscopes]
      · exact (Except.ok.inj hok).symm
  | cons willIt rest =>
      have henclosing := h.enclosing
      rw [hscopes] at henclosing
      obtain ⟨hsound, hrest⟩ := List.forall_mem_cons.1 henclosing
      obtain ⟨-, hfits⟩ := hkept.enclosing willIt (by rw [hscopes]; exact List.mem_cons_self)
      rw [hkept.exitScope_cons h.fits hscopes]
      exact ⟨⟨hsound.recounted, hfits, hrest⟩, fun left hok => (Except.ok.inj hok).symm⟩

theorem Valid.captureControlFlowState (h : s.Valid) (hkept : s.Kept)
    {snapshot : ControlFlowStateSnapshot} (hok : s.captureControlFlowState = .ok snapshot) :
    snapshot.Valid := by
  obtain ⟨-, rfl⟩ := hkept.captureControlFlowState_eq_ok_iff.1 hok
  exact ⟨h.current.recounted, h.current.main⟩

theorem Valid.captureControlFlowStateAndExitScope (h : s.Valid) (hkept : s.Kept) :
    s.captureControlFlowStateAndExitScope.2.Valid ∧
      ∀ snapshot, s.captureControlFlowStateAndExitScope.1 = .ok snapshot → snapshot.Valid := by
  unfold ScopeState.captureControlFlowStateAndExitScope
  cases hcapture : s.captureControlFlowState with
  | error error => exact ⟨h, nofun⟩
  | ok snapshot =>
      obtain ⟨-, rfl⟩ := hkept.captureControlFlowState_eq_ok_iff.1 hcapture
      obtain ⟨hscope, hleft⟩ := h.exitScope hkept
      rcases hexit : s.exitScope with ⟨left, s'⟩
      rw [hexit] at hscope hleft
      cases left with
      | error error => exact ⟨hscope, nofun⟩
      | ok left =>
          obtain rfl := hleft left rfl
          simp only [hkept.current.recounted.assign_eq h.fits]
          refine ⟨hscope, fun snapshot hok => ?_⟩
          obtain rfl := Except.ok.inj hok
          exact ⟨h.current.recounted.recounted, h.current.main⟩

theorem Valid.restoreControlFlowState (h : s.Valid) (hkept : s.Kept)
    {snapshot : ControlFlowStateSnapshot} (hsnapshot : snapshot.Kept) (hvalid : snapshot.Valid) :
    (s.restoreControlFlowState snapshot).2.Valid := by
  by_cases hdepth : s.depth = snapshot.lexicalDepth
  · rw [hkept.restoreControlFlowState_eq hsnapshot hdepth]
    have hmain : ScopeTable.Sound { snapshot.symbolTable with
        main := ⟨snapshot.symbolTable.main.content, snapshot.mainCombinedSize⟩ } :=
      hvalid.table.withMain hvalid.mainSize
    exact (h.setTable hmain hsnapshot.fits).setAltStack _
  · unfold ScopeState.restoreControlFlowState
    rw [if_pos hdepth]
    exact h

theorem Valid.moveTopToAlt_iff (h : s.Valid) (hkept : s.Kept) :
    s.moveTopToAlt.2.currentSymtab.Sound ↔ ∀ top ∈ s.currentSymtab.main.content.head?,
      combinedStackSize (top :: s.altStack.content) ≤ maxStackSize := by
  have hmain := h.current.main
  unfold ScopeState.moveTopToAlt
  dsimp only
  split
  · rename_i hnil
    rw [hnil]
    exact iff_of_true h.current nofun
  · rename_i top rest hcontent
    rw [hkept.altStack.push_eq top, hcontent]
    simp only [List.head?_cons, Option.mem_def, Option.some.injEq, forall_eq']
    split_ifs with hover
    -- the counter has lost the top, the stack has not
    · refine iff_of_false (fun hsound => ?_) (Nat.not_le.2 hover)
      have hcounted : s.currentSymtab.main.combinedStackSize - top.getMemoryUsage =
          combinedStackSize s.currentSymtab.main.content := hsound.main
      have hsome : 0 < top.getMemoryUsage := by
        unfold StackElement.getMemoryUsage
        omega
      omega
    · exact iff_of_true (h.current.withMain h.accounted.pop.size_eq) (Nat.not_lt.1 hover)

theorem moveTopToAlt_main (s : ScopeState) (hmain : s.currentSymtab.main.Accounted) :
    s.moveTopToAlt.2.currentSymtab.Fits ∧ s.moveTopToAlt.2.symtabScopes = s.symtabScopes := by
  unfold ScopeState.moveTopToAlt
  dsimp only
  split
  · exact ⟨hmain.le_max, rfl⟩
  · split
    · exact ⟨hmain.le_max, rfl⟩
    · exact ⟨hmain.pop.le_max, rfl⟩

theorem Valid.restoreSharedAltStack_iff (h : s.Valid) (hkept : s.Kept) :
    s.restoreSharedAltStack.2.currentSymtab.Sound ↔
      ∀ size ∈ s.currentSymtab.savedCombinedStackSize.head?,
        size = s.currentSymtab.main.combinedStackSize := by
  have hmain := h.current.main
  have hsizes := h.current.sizes
  have hlengths : s.currentSymtab.savedAltStackCombinedStackSize.length =
      s.currentSymtab.savedSharedAltStackElements.length := by
    rw [hkept.current.saved, List.length_map]
  have hfits := hkept.current.fits
  unfold ScopeState.restoreSharedAltStack
  dsimp only
  split
  · rename_i elements savedElements altSize savedAltSizes mainSize savedSizes helements _ hmains
    rw [helements] at hfits
    rw [hkept.altStack.replaceStackContent (List.forall_mem_cons.1 hfits).1, hmains]
    simp only [List.head?_cons, Option.mem_def, Option.some.injEq, forall_eq']
    rw [hmain]
    refine ⟨fun hsound => hsound.main, fun hsize => ⟨hsize, h.current.declared, ?_,
      h.current.bindFrame, h.current.scopeFrame⟩⟩
    rw [helements, hmains, List.length_cons, List.length_cons] at hsizes
    exact Nat.succ.inj hsizes
  · rename_i hnone
    refine iff_of_true h.current ?_
    intro size hsize
    -- the three lists end together
    exfalso
    cases hmains : s.currentSymtab.savedCombinedStackSize with
    | nil =>
        rw [hmains] at hsize
        cases hsize
    | cons mainSize savedSizes =>
        rw [hmains, List.length_cons] at hsizes
        cases helements : s.currentSymtab.savedSharedAltStackElements with
        | nil =>
            rw [helements] at hsizes
            cases hsizes
        | cons elements savedElements =>
            rw [helements, List.length_cons] at hlengths
            cases halts : s.currentSymtab.savedAltStackCombinedStackSize with
            | nil =>
                rw [halts] at hlengths
                cases hlengths
            | cons altSize savedAltSizes =>
                exact hnone _ _ _ _ _ _ helements halts hmains

theorem restoreSharedAltStack_main (s : ScopeState) :
    s.restoreSharedAltStack.2.currentSymtab.main.content = s.currentSymtab.main.content ∧
      s.restoreSharedAltStack.2.symtabScopes = s.symtabScopes := by
  unfold ScopeState.restoreSharedAltStack
  dsimp only
  split
  · split <;> exact ⟨rfl, rfl⟩
  · exact ⟨rfl, rfl⟩

theorem Valid.renameEntriesByPrefix_iff (h : s.Valid) (oldPrefix newPrefix : String) :
    (s.renameEntriesByPrefix oldPrefix newPrefix).currentSymtab.Sound ↔
      oldPrefix = newPrefix ∨ oldPrefix = "" ∨ s.currentSymtab.PrefixFits oldPrefix newPrefix := by
  unfold ScopeState.renameEntriesByPrefix
  split_ifs with hskip
  · exact iff_of_true h.current (or_assoc.1 (.inl hskip))
  · rw [not_or] at hskip
    rw [or_iff_right hskip.1, or_iff_right hskip.2]
    exact h.current.renameEntriesByPrefix_iff oldPrefix newPrefix

theorem renameEntriesByPrefix_main (s : ScopeState) (hfits : s.currentSymtab.Fits)
    (oldPrefix newPrefix : String) :
    (s.renameEntriesByPrefix oldPrefix newPrefix).currentSymtab.Fits ∧
      (s.renameEntriesByPrefix oldPrefix newPrefix).symtabScopes = s.symtabScopes := by
  unfold ScopeState.renameEntriesByPrefix
  split_ifs
  · exact ⟨hfits, rfl⟩
  · refine ⟨?_, rfl⟩
    show combinedStackSize (s.currentSymtab.main.renameByPrefix oldPrefix newPrefix).content ≤
      maxStackSize
    rw [combinedStackSize_renameByPrefix]
    exact hfits

end ScopeState

namespace Session

variable {s : Session}

theorem Valid.fresh : Valid .fresh := ⟨.fresh, ⟨.empty 0, Nat.zero_le _, nofun⟩, nofun⟩

theorem Valid.keep (h : s.Valid) {result : Except String ControlFlowStateSnapshot × ScopeState}
    (hkept : (s.keep result).2.Kept) (hscope : result.2.Valid)
    (hsnapshot : ∀ snapshot, result.1 = .ok snapshot → snapshot.Valid) :
    (s.keep result).2.Valid := by
  obtain ⟨captured, scope⟩ := result
  cases captured with
  | error error => exact ⟨hkept, hscope, h.snapshots⟩
  | ok snapshot =>
      exact ⟨hkept, hscope, List.forall_mem_cons.2 ⟨hsnapshot snapshot rfl, h.snapshots⟩⟩

theorem Valid.withSnapshot (h : s.Valid) {index : ℕ}
    {f : ControlFlowStateSnapshot → Thrown ScopeState} (hkept : (s.withSnapshot index f).2.Kept)
    (hf : ∀ snapshot, snapshot.Kept → snapshot.Valid → (f snapshot).2.Valid) :
    (s.withSnapshot index f).2.Valid := by
  unfold Session.withSnapshot at *
  split
  · rename_i snapshot hget
    have hmem := List.mem_of_getElem? hget
    rw [hget] at hkept
    exact ⟨hkept, hf snapshot (h.kept.snapshots snapshot hmem) (h.snapshots snapshot hmem),
      h.snapshots⟩
  · exact h

/-- **An operation that fits keeps the invariant.** -/
theorem Valid.next (h : s.Valid) {op : ScopeOp} (hfits : op.Fits s) : (s.next op).Valid := by
  have hscope := h.scope
  have hkept := h.kept.scope
  have hnext := h.kept.next op
  have hsound := hscope.current
  cases op with
  | table op => exact ⟨hnext, hscope.onTable hfits, h.snapshots⟩
  | setFixed element =>
      refine ⟨hnext, hscope.setTable ?_ hscope.fits, h.snapshots⟩
      exact ⟨hsound.main, hsound.declared, hsound.sizes, hsound.bindFrame, hsound.scopeFrame⟩
  | removeFixed name =>
      refine ⟨hnext, ?_, h.snapshots⟩
      show (s.scope.setTable (s.scope.currentSymtab.removeFixed name).2).Valid
      unfold ScopeTable.removeFixed
      split
      · refine hscope.setTable ?_ hscope.fits
        exact ⟨hsound.main, hsound.declared, hsound.sizes, hsound.bindFrame, hsound.scopeFrame⟩
      · exact hscope
  | setAlt symbolName moveOnlyMatch =>
      exact ⟨hnext, hscope.setAlt symbolName moveOnlyMatch, h.snapshots⟩
  | setAltCount moveElementNum =>
      exact ⟨hnext, hscope.settle hscope.accounted.transfer_source _, h.snapshots⟩
  | setMain symbolName =>
      exact ⟨hnext, hscope.settle hscope.accounted.transfer_target _, h.snapshots⟩
  | setMainCount moveElementNum =>
      exact ⟨hnext, hscope.settle hscope.accounted.transfer_target _, h.snapshots⟩
  | pushAlt element => exact ⟨hnext, hscope.setAltStack _, h.snapshots⟩
  | popAlt => exact ⟨hnext, hscope.setAltStack _, h.snapshots⟩
  | eraseAlt index => exact ⟨hnext, hscope.setAltStack _, h.snapshots⟩
  | moveTopToAlt =>
      -- the enclosing scopes are untouched
      obtain ⟨hmain, hscopes⟩ := s.scope.moveTopToAlt_main hscope.accounted
      refine ⟨hnext, ⟨(hscope.moveTopToAlt_iff hkept).2 hfits, hmain, ?_⟩, h.snapshots⟩
      exact hscopes ▸ hscope.enclosing
  | clearSharedAltStack => exact ⟨hnext, hscope.setAltStack _, h.snapshots⟩
  | saveSharedAltStack => exact ⟨hnext, hscope.saveSharedAltStack, h.snapshots⟩
  | restoreSharedAltStack =>
      obtain ⟨hcontent, hscopes⟩ := s.scope.restoreSharedAltStack_main
      refine ⟨hnext, ⟨(hscope.restoreSharedAltStack_iff hkept).2 hfits, ?_, ?_⟩, h.snapshots⟩
      · exact (congrArg combinedStackSize hcontent).trans_le hscope.fits
      · exact hscopes ▸ hscope.enclosing
  | renameEntriesByPrefix oldPrefix newPrefix =>
      obtain ⟨hmain, hscopes⟩ :=
        s.scope.renameEntriesByPrefix_main hscope.fits oldPrefix newPrefix
      refine ⟨hnext, ⟨(hscope.renameEntriesByPrefix_iff _ _).2 hfits, hmain, ?_⟩, h.snapshots⟩
      exact hscopes ▸ hscope.enclosing
  | clean => exact ⟨hnext, ⟨.empty _, Nat.zero_le _, nofun⟩, h.snapshots⟩
  | enterScope => exact ⟨hnext, hscope.enterScope hkept, h.snapshots⟩
  | exitScope =>
      have hexit := (hscope.exitScope hkept).1
      simp only [Session.next, Session.step] at hnext ⊢
      split
      · rename_i error scope heq
        rw [heq] at hexit hnext
        exact ⟨hnext, hexit, h.snapshots⟩
      · rename_i left scope heq
        rw [heq] at hexit hnext
        exact ⟨hnext, hexit, h.snapshots⟩
  | popScopeStack =>
      refine ⟨hnext, ⟨hsound, hscope.fits, fun t ht => ?_⟩, h.snapshots⟩
      exact hscope.enclosing t (List.mem_of_mem_tail ht)
  | captureControlFlowState =>
      exact h.keep hnext hscope fun snapshot hok => hscope.captureControlFlowState hkept hok
  | captureControlFlowStateAndExitScope =>
      -- the snapshot is taken before the scope is left
      obtain ⟨hexited, hsnapshot⟩ := hscope.captureControlFlowStateAndExitScope hkept
      exact h.keep hnext hexited hsnapshot
  | restoreControlFlowState index =>
      refine h.withSnapshot hnext fun snapshot hsnapshot hvalid => ?_
      exact hscope.restoreControlFlowState hkept hsnapshot hvalid
  | replaceCurrentSymtab index =>
      refine h.withSnapshot hnext fun snapshot hsnapshot hvalid => ?_
      show (s.scope.setTable (s.scope.currentSymtab.assign snapshot.symbolTable).2).Valid
      rw [hsnapshot.table.assign_eq hsnapshot.fits]
      exact hscope.setTable hvalid.table.recounted hsnapshot.fits

/-- **The check holds after an operation exactly where it fits.** -/
theorem Valid.validateState_next_iff (h : s.Valid) (op : ScopeOp) :
    (s.next op).scope.currentSymtab.validateState (s.next op).scope.altStack = none ↔
      op.Fits s := by
  have hnext := (h.kept.next op).scope
  rw [hnext.current.validateState_eq_none_iff hnext.altStack]
  refine ⟨fun hsound => ?_, fun hfits => (h.next hfits).scope.current⟩
  cases op with
  | table op => exact (TableOp.sound_iff h.scope.current h.scope.accounted op).1 hsound
  | moveTopToAlt => exact (h.scope.moveTopToAlt_iff h.kept.scope).1 hsound
  | restoreSharedAltStack => exact (h.scope.restoreSharedAltStack_iff h.kept.scope).1 hsound
  | renameEntriesByPrefix oldPrefix newPrefix =>
      exact (h.scope.renameEntriesByPrefix_iff oldPrefix newPrefix).1 hsound
  | _ => trivial

end Session

/-- **The check holds after every operation of a run exactly where every operation fits.** -/
theorem validateState_iff (ops : List ScopeOp) :
    AlongRun Session.next (fun s op =>
        (s.next op).scope.currentSymtab.validateState (s.next op).scope.altStack = none)
      .fresh ops ↔
    AlongRun Session.next (fun s op => op.Fits s) .fresh ops :=
  alongRun_iff Session.Valid (fun _ op h hgood => h.next ((h.validateState_next_iff op).1 hgood))
    (fun _ op h => h.validateState_next_iff op) .fresh ops

/-- A rename of a symbol that does not exist takes away the entry of a declared one. -/
theorem not_validateState_of_failed_rename :
    let s := Session.fresh.run [.table (.defineSymbol "a" "" ""), .table (.renameSymbolEntry "b" "a")]
    s.scope.currentSymtab.validateState s.scope.altStack =
      some "declared symbol is missing from the current scope: a" := by
  decide +kernel

end AtomicProof
