/-
Renaming a symbol.

When `a = b` binds a fresh `a` to a composite value, nothing is emitted: `renameSymbolEntry`,
`renameArraySymbol` and `renameCompoundSymbol` of `src/src/bytecode/symtab.cpp` give the entry of `b` the
name `a` in the scope, in the lists of names and on the symbolic stack.  A name may be shadowed, so that a
list holds it several times; its last entry is the innermost one.

Main definitions:

* `splitLast` — a list around its last element with a property;
* `SymbolTable.renameSymbolEntry`, `SymbolTable.renameArraySymbol`,
  `SymbolTable.renameCompoundSymbol` — the renames;
* `RenamesInnermost` — what is asked of a rename;
* `RenameSafe` — the tables and names for which it is so.

Main results:

* `splitLast_eq_some`, `splitLast_eq_none` — the last element with a property;
* `relabel_pointwise` — renaming slots one after the other renames the topmost ones at once;
* `renamesInnermost_iff` — **a rename is right exactly for safe names**.
-/

import AtomicProof.ScriptNumCodecs
import AtomicProof.SymbolTable
import Mathlib.Data.List.Nodup

set_option autoImplicit false

namespace AtomicProof

/-! ### The last element with a property -/

section SplitLast

variable {α : Type} {p : α → Bool} {l before after : List α} {x : α}

/-- The last element with a property, with what stands before and after it. -/
def splitLast (p : α → Bool) : List α → Option (List α × α × List α)
  | [] => none
  | x :: xs =>
      match splitLast p xs with
      | some (before, y, after) => some (x :: before, y, after)
      | none => if p x then some ([], x, xs) else none

theorem splitLast_eq_none : splitLast p l = none ↔ ∀ x ∈ l, ¬ p x := by
  induction l with
  | nil => simp [splitLast]
  | cons x xs ih =>
      rw [List.forall_mem_cons, ← ih, splitLast]
      cases splitLast p xs with
      | none => simp
      | some parts => simp

/-- **The last element with a property.** -/
theorem splitLast_eq_some :
    splitLast p l = some (before, x, after) ↔
      l = before ++ x :: after ∧ p x ∧ ∀ y ∈ after, ¬ p y := by
  induction l generalizing before x after with
  | nil => simp [splitLast]
  | cons y ys ih =>
      rw [splitLast]
      cases hsplit : splitLast p ys with
      | none =>
          have hnone := splitLast_eq_none.1 hsplit
          constructor
          · intro h
            simp only at h
            split_ifs at h with hy
            obtain ⟨rfl, rfl, rfl⟩ : [] = before ∧ y = x ∧ ys = after := by simpa using h
            exact ⟨rfl, hy, hnone⟩
          · rintro ⟨hl, hx, -⟩
            rcases before with _ | ⟨z, before⟩
            · obtain ⟨rfl, rfl⟩ := List.cons.inj hl
              simp [hx]
            · obtain ⟨rfl, rfl⟩ := List.cons.inj hl
              exact absurd hx (hnone x (by simp))
      | some parts =>
          obtain ⟨before', z, after'⟩ := parts
          constructor
          · intro h
            obtain ⟨rfl, rfl, rfl⟩ : y :: before' = before ∧ z = x ∧ after' = after := by
              simpa using h
            obtain ⟨rfl, hz, hafter⟩ := ih.1 hsplit
            exact ⟨rfl, hz, hafter⟩
          · rintro ⟨hl, hx, hafter⟩
            rcases before with _ | ⟨w, before⟩
            · obtain ⟨-, rfl⟩ := List.cons.inj hl
              obtain ⟨hys, hz, -⟩ := ih.1 hsplit
              exact absurd hz (hafter z (by rw [hys]; simp))
            · obtain ⟨rfl, hys⟩ := List.cons.inj hl
              have hsame := hsplit.symm.trans (ih.2 ⟨hys, hx, hafter⟩)
              obtain ⟨rfl, rfl, rfl⟩ : before' = before ∧ z = x ∧ after' = after := by
                simpa using hsame
              rfl

end SplitLast

/-! ### The renames -/

/-- `OpStack::renameTopToBottom`: the topmost slot of a name gets the other name. -/
def renameTopToBottom (oldName newName : String) : List StackElement → List StackElement
  | [] => []
  | slot :: slots =>
      if slot.name = oldName then { slot with name := newName } :: slots
      else slot :: renameTopToBottom oldName newName slots

def renameOrAppendInList (list : List String) (oldName newName : String) : List String :=
  if oldName ∈ list then list.map fun entry => if entry = oldName then newName else entry
  else list ++ [newName]

def renameExistingInList (list : List String) (oldName newName : String) : List String :=
  if oldName = newName then list
  else if newName ∈ list then list.filter (· ≠ oldName)
  else list.map fun entry => if entry = oldName then newName else entry

/-- The last entry of a name, with what stands before and after it. -/
def lastEntry (scope : List (String × SymbolInfo)) (name : String) :=
  splitLast (fun entry => entry.1 == name) scope

def eraseScopeEntriesByKey (scope : List (String × SymbolInfo)) (key : String) :
    List (String × SymbolInfo) :=
  match lastEntry scope key with
  | some (outer, _, inner) => outer ++ inner
  | none => scope

/-- The innermost entry of a name with other information. -/
def updateLastEntry (scope : List (String × SymbolInfo)) (name : String)
    (update : SymbolInfo → SymbolInfo) : List (String × SymbolInfo) :=
  match lastEntry scope name with
  | some (outer, entry, inner) => outer ++ (entry.1, update entry.2) :: inner
  | none => scope

/-- The labels of the elements of an array, with those they get under another name. -/
def elementLabels (info : ArrayInfo) (newName : String) : List (String × String) :=
  (List.range info.size).map fun index =>
    (info.getElementLabel index, { info with name := newName }.getElementLabel index)

/-- The slots with the pairs of names renamed one after the other. -/
def relabel (pairs : List (String × String)) (slots : List StackElement) : List StackElement :=
  pairs.foldl (fun slots pair => renameTopToBottom pair.1 pair.2 slots) slots

namespace SymbolTable

/-- What the three renames share: the innermost entry of the new name is cleared, then the innermost
entry of the old one is looked for, which has to be of the right kind. -/
def renameEntry (accepts : SymbolInfo → Bool) (update : SymbolInfo → SymbolInfo)
    (pairs : SymbolInfo → List (String × String)) (st : SymbolTable) (oldName newName : String) :
    Bool × SymbolTable :=
  let st := { st with currentScope := eraseScopeEntriesByKey st.currentScope newName }
  match lastEntry st.currentScope oldName with
  | none => (false, st)
  | some (outer, entry, inner) =>
      if accepts entry.2 then
        (true,
          { st with
            currentScope := outer ++ (newName, { update entry.2 with name := newName }) :: inner
            newSymbol := renameOrAppendInList st.newSymbol oldName newName
            declaredSymbols := renameExistingInList st.declaredSymbols oldName newName
            main := relabel (pairs entry.2) st.main })
      else (false, st)

def renameSymbolEntry (st : SymbolTable) (oldName newName : String) : Bool × SymbolTable :=
  renameEntry (fun _ => true) id (fun _ => [(oldName, newName)]) st oldName newName

def renameArraySymbol (st : SymbolTable) (oldName newName : String) : Bool × SymbolTable :=
  renameEntry (fun info => info.arrayInfo.isSome)
    (fun info => { info with arrayInfo := info.arrayInfo.map ({ · with name := newName }) })
    (fun info => (info.arrayInfo.map fun array => elementLabels array newName).getD [])
    st oldName newName

def renameCompoundSymbol (st : SymbolTable) (oldName newName : String) : Bool × SymbolTable :=
  renameEntry (fun info => info.compoundInfo.isSome)
    (fun info => { info with compoundInfo := info.compoundInfo.map ({ · with name := newName }) })
    (fun _ => [(oldName, newName)]) st oldName newName

end SymbolTable

/-! ### Slots -/

section Slots

variable {pairs : List (String × String)} {slots : List StackElement} {slot : StackElement}

/-- All topmost slots of the old names at once. -/
def relabelTopmost (pairs : List (String × String)) (slots : List StackElement) :
    List StackElement :=
  slots.mapIdx fun position slot =>
    if posOf slot.name slots = some position then
      { slot with name := (pairs.lookup slot.name).getD slot.name }
    else slot

theorem posOf_cons_succ {name : String} {position : ℕ} :
    posOf name (slot :: slots) = some (position + 1) ↔
      slot.name ≠ name ∧ posOf name slots = some position := by
  rw [posOf, posOf, List.findIdx?_cons]
  by_cases h : slot.name = name
  · simp [h]
  · simp [h]

theorem posOf_cons_self : posOf slot.name (slot :: slots) = some 0 := by
  rw [posOf, List.findIdx?_cons]
  simp

theorem lookup_filter_ne (name other : String) :
    (pairs.filter (·.1 ≠ name)).lookup other = if other = name then none else pairs.lookup other := by
  induction pairs with
  | nil => simp
  | cons pair pairs ih =>
      obtain ⟨first, second⟩ := pair
      by_cases hfirst : first = name
      · rw [List.filter_cons_of_neg (by simpa using hfirst), ih]
        split_ifs with hother
        · rfl
        · rw [List.lookup_cons, show (other == first) = false by simp [hfirst, hother]]
      · rw [List.filter_cons_of_pos (by simpa using hfirst), List.lookup_cons, List.lookup_cons, ih]
        by_cases hother : other = first
        · subst hother
          simp [hfirst]
        · rw [show (other == first) = false by simp [hother]]

/-- The topmost slot of a list gets its name, and the others of that name keep theirs. -/
theorem relabelTopmost_cons :
    relabelTopmost pairs (slot :: slots) =
      { slot with name := (pairs.lookup slot.name).getD slot.name } ::
        relabelTopmost (pairs.filter (·.1 ≠ slot.name)) slots := by
  rw [relabelTopmost, relabelTopmost, List.mapIdx_cons, if_pos posOf_cons_self]
  congr 1
  refine List.ext_getElem? fun position => ?_
  rw [List.getElem?_mapIdx, List.getElem?_mapIdx]
  cases hget : slots[position]? with
  | none => rfl
  | some other =>
      rw [Option.map_some, Option.map_some]
      congr 1
      rw [lookup_filter_ne]
      by_cases hname : other.name = slot.name
      · rw [if_neg (fun h => (posOf_cons_succ.1 h).1 hname.symm), if_pos hname]
        split_ifs <;> rfl
      · have hpos : posOf other.name (slot :: slots) = some (position + 1) ↔
            posOf other.name slots = some position := by
          rw [posOf_cons_succ]
          exact and_iff_right (Ne.symm hname)
        rw [if_neg hname]
        simp only [hpos]

theorem relabel_cons_of_notMem (h : slot.name ∉ pairs.map (·.1)) :
    relabel pairs (slot :: slots) = slot :: relabel pairs slots := by
  induction pairs generalizing slots with
  | nil => rfl
  | cons pair pairs ih =>
      rw [List.map_cons, List.mem_cons, not_or] at h
      rw [relabel, List.foldl_cons, renameTopToBottom, if_neg h.1]
      exact ih h.2

theorem relabel_nil : relabel pairs [] = [] := by
  induction pairs with
  | nil => rfl
  | cons pair pairs ih => exact ih

/-- The first slot takes the new name of its pair, which the other pairs then leave alone. -/
theorem relabel_cons (hnodup : (pairs.map (·.1)).Nodup)
    (hnew : ∀ pair ∈ pairs, pair.2 ∉ pairs.map (·.1)) :
    relabel pairs (slot :: slots) =
      { slot with name := (pairs.lookup slot.name).getD slot.name } ::
        relabel (pairs.filter (·.1 ≠ slot.name)) slots := by
  induction pairs generalizing slots with
  | nil => rfl
  | cons pair pairs ih =>
      obtain ⟨hfirst, hnodup⟩ := List.nodup_cons.1 hnodup
      have hrest : ∀ other ∈ pairs, other.2 ∉ pairs.map (·.1) := fun other hother hmem =>
        hnew other (List.mem_cons_of_mem _ hother) (List.mem_cons_of_mem _ hmem)
      rw [relabel, List.foldl_cons, renameTopToBottom, List.lookup_cons]
      by_cases hname : slot.name = pair.1
      · rw [if_pos hname, List.filter_cons_of_neg (by simp [hname]),
          show (slot.name == pair.1) = true by simp [hname]]
        have hkeep : pairs.filter (·.1 ≠ slot.name) = pairs := by
          rw [List.filter_eq_self]
          intro other hother
          simp only [decide_eq_true_eq]
          intro hsame
          exact hfirst (List.mem_map.2 ⟨other, hother, hsame.trans hname⟩)
        rw [hkeep]
        refine relabel_cons_of_notMem ?_
        intro hmem
        exact hnew pair List.mem_cons_self (List.mem_cons_of_mem _ hmem)
      · rw [if_neg hname, List.filter_cons_of_pos (by simpa using Ne.symm hname),
          show (slot.name == pair.1) = false by simp [hname]]
        exact ih hnodup hrest

/-- **Renaming slots one after the other renames the topmost ones at once.** -/
theorem relabel_pointwise (hnodup : (pairs.map (·.1)).Nodup)
    (hnew : ∀ pair ∈ pairs, pair.2 ∉ pairs.map (·.1)) :
    relabel pairs slots = relabelTopmost pairs slots := by
  induction slots generalizing pairs with
  | nil => exact relabel_nil
  | cons slot slots ih =>
      rw [relabel_cons hnodup hnew, relabelTopmost_cons]
      congr 1
      have hsub : (pairs.filter (·.1 ≠ slot.name)).Sublist pairs := List.filter_sublist
      refine ih (hnodup.sublist (hsub.map _)) ?_
      intro pair hpair hmem
      exact hnew pair (hsub.subset hpair) ((hsub.map _).subset hmem)

theorem renameTopToBottom_self (name : String) : renameTopToBottom name name slots = slots := by
  induction slots with
  | nil => rfl
  | cons slot slots ih =>
      rw [renameTopToBottom, ih]
      split_ifs with h
      · rw [← h]
      · rfl

theorem relabel_self (h : ∀ pair ∈ pairs, pair.2 = pair.1) : relabel pairs slots = slots := by
  induction pairs generalizing slots with
  | nil => rfl
  | cons pair pairs ih =>
      rw [relabel, List.foldl_cons, h pair List.mem_cons_self, renameTopToBottom_self]
      exact ih fun other hother => h other (List.mem_cons_of_mem _ hother)

theorem relabelTopmost_self (h : ∀ pair ∈ pairs, pair.2 = pair.1) :
    relabelTopmost pairs slots = slots := by
  have hlookup : ∀ name, (pairs.lookup name).getD name = name := by
    intro name
    cases hget : pairs.lookup name with
    | none => rfl
    | some value =>
        obtain ⟨before, after, rfl, -⟩ := List.lookup_eq_some_iff.1 hget
        exact h (name, value) (by simp)
  refine List.ext_getElem? fun position => ?_
  rw [relabelTopmost, List.getElem?_mapIdx]
  cases slots[position]? with
  | none => rfl
  | some slot =>
      rw [Option.map_some, hlookup, ite_self]

end Slots

/-! ### Labels -/

section Labels

variable {info other : ArrayInfo} {index position : ℕ}

theorem notMem_bytesToHex (bytes : Bytes) : '[' ∉ bytesToHex bytes := by
  intro hmem
  have hdigits := (hexPairs_isSome_iff (bytesToHex bytes)).1 (by rw [hexPairs_bytesToHex]; rfl)
  exact absurd (hdigits.2 _ hmem) (by decide)

theorem notMem_numberToScriptHex (value : ℤ) : '[' ∉ (numberToScriptHex value).toList := by
  simp [numberToScriptHex_eq, notMem_bytesToHex]

/-- A label determines the name of the array and the number of the element. -/
theorem getElementLabel_eq (h : info.getElementLabel index = other.getElementLabel position) :
    info.name = other.name ∧
      numberToScriptHex (index : ℤ) = numberToScriptHex (position : ℤ) := by
  have hchars : ∀ (info : ArrayInfo) (index : ℕ),
      splitLast (· == '[') (info.getElementLabel index).toList =
        some (info.name.toList, '[', (numberToScriptHex (index : ℤ)).toList ++ [']']) := by
    intro info index
    refine splitLast_eq_some.2 ⟨?_, rfl, ?_⟩
    · simp [ArrayInfo.getElementLabel]
    · intro c hc hbracket
      obtain rfl : c = '[' := by simpa using hbracket
      rcases List.mem_append.1 hc with hc | hc
      · exact notMem_numberToScriptHex _ hc
      · exact absurd hc (by decide)
  have hsame := (hchars info index).symm.trans ((congrArg _ (congrArg String.toList h)).trans
    (hchars other position))
  obtain ⟨hname, -, hnumber⟩ :
      info.name.toList = other.name.toList ∧ '[' = '[' ∧
        (numberToScriptHex (index : ℤ)).toList ++ [']'] =
          (numberToScriptHex (position : ℤ)).toList ++ [']'] := by
    simpa using hsame
  exact ⟨String.toList_inj.1 hname, String.toList_inj.1 (List.append_cancel_right hnumber)⟩

theorem nodup_elementLabels (newName : String) (hsize : info.size < 2 ^ 63) :
    ((elementLabels info newName).map (·.1)).Nodup := by
  rw [elementLabels, List.map_map]
  refine List.Nodup.map_on ?_ List.nodup_range
  intro index hindex position hposition hlabel
  have hi := List.mem_range.1 hindex
  have hj := List.mem_range.1 hposition
  have hnumber := congrArg scriptHexToNumber (getElementLabel_eq hlabel).2
  rw [scriptHexToNumber_numberToScriptHex (by omega) (by omega),
    scriptHexToNumber_numberToScriptHex (by omega) (by omega)] at hnumber
  exact_mod_cast hnumber

theorem notMem_elementLabels {newName : String} (hname : info.name ≠ newName) :
    ∀ pair ∈ elementLabels info newName, pair.2 ∉ (elementLabels info newName).map (·.1) := by
  intro pair hpair hmem
  obtain ⟨index, -, rfl⟩ := List.mem_map.1 hpair
  rw [elementLabels, List.map_map] at hmem
  obtain ⟨position, -, hlabel⟩ := List.mem_map.1 hmem
  exact hname (getElementLabel_eq hlabel).1

/-- **The slots of an array change their names together.** -/
theorem relabel_elementLabels (newName : String) (hsize : info.size < 2 ^ 63)
    (slots : List StackElement) :
    relabel (elementLabels info newName) slots =
      relabelTopmost (elementLabels info newName) slots := by
  by_cases hname : info.name = newName
  · have hsame : ∀ pair ∈ elementLabels info newName, pair.2 = pair.1 := by
      intro pair hpair
      obtain ⟨index, -, rfl⟩ := List.mem_map.1 hpair
      rw [← hname]
    rw [relabel_self hsame, relabelTopmost_self hsame]
  · exact relabel_pointwise (nodup_elementLabels newName hsize) (notMem_elementLabels hname)

end Labels

/-! ### The lists of names -/

section Names

variable {oldName newName : String} {list : List String}

/-- The last entry of the old name has the new one, or is gone where the new one is there already; all
others are as before.  Where the old name does not occur the new one may be added. -/
def ListRenamed (oldName newName : String) (before after : List String) : Prop :=
  (oldName ∉ before ∧ (after = before ∨ after = before ++ [newName])) ∨
    ∃ outer inner, before = outer ++ oldName :: inner ∧ oldName ∉ inner ∧
      (after = outer ++ newName :: inner ∨ (newName ∈ before ∧ after = outer ++ inner))

theorem map_replace_of_notMem (h : oldName ∉ list) :
    (list.map fun entry => if entry = oldName then newName else entry) = list := by
  conv_rhs => rw [← List.map_id list]
  refine List.map_congr_left ?_
  intro entry hentry
  refine if_neg ?_
  rintro rfl
  exact h hentry

theorem filter_ne_of_notMem (h : oldName ∉ list) : list.filter (· ≠ oldName) = list := by
  rw [List.filter_eq_self]
  intro entry hentry
  simp only [ne_eq, decide_eq_true_eq]
  rintro rfl
  exact h hentry

/-- A list that holds the old name no longer has its last entry renamed only where there was one. -/
theorem ListRenamed.count_le_one {after : List String} (h : ListRenamed oldName newName list after)
    (hafter : oldName ∉ after) : list.count oldName ≤ 1 := by
  rcases h with ⟨hnot, -⟩ | ⟨outer, inner, rfl, hinner, hcases⟩
  · rw [List.count_eq_zero.2 hnot]
    exact Nat.zero_le 1
  · have houter : oldName ∉ outer := by
      rintro hmem
      rcases hcases with rfl | ⟨-, rfl⟩
      · exact hafter (List.mem_append_left _ hmem)
      · exact hafter (List.mem_append_left _ hmem)
    rw [List.count_append, List.count_cons_self, List.count_eq_zero.2 houter,
      List.count_eq_zero.2 hinner]

theorem exists_only (h : oldName ∈ list) (hcount : list.count oldName ≤ 1) :
    ∃ outer inner, list = outer ++ oldName :: inner ∧ oldName ∉ outer ∧ oldName ∉ inner := by
  obtain ⟨outer, inner, rfl⟩ := List.append_of_mem h
  rw [List.count_append, List.count_cons_self] at hcount
  exact ⟨outer, inner, rfl, List.count_eq_zero.1 (by omega), List.count_eq_zero.1 (by omega)⟩

theorem notMem_map_replace (hne : oldName ≠ newName) :
    oldName ∉ list.map fun entry => if entry = oldName then newName else entry := by
  intro hmem
  obtain ⟨entry, -, hentry⟩ := List.mem_map.1 hmem
  split_ifs at hentry with hsame
  · exact hne hentry.symm
  · exact hsame hentry

theorem listRenamed_replace_iff (hne : oldName ≠ newName) (h : oldName ∈ list) :
    ListRenamed oldName newName list
      (list.map fun element => if element = oldName then newName else element) ↔
      list.count oldName ≤ 1 := by
  constructor
  · intro hrenamed
    exact hrenamed.count_le_one (notMem_map_replace hne)
  · intro hcount
    obtain ⟨outer, inner, rfl, houter, hinner⟩ := exists_only h hcount
    refine .inr ⟨outer, inner, rfl, hinner, .inl ?_⟩
    rw [List.map_append, List.map_cons, if_pos rfl, map_replace_of_notMem houter,
      map_replace_of_notMem hinner]

theorem listRenamed_renameOrAppend_iff (hne : oldName ≠ newName) :
    ListRenamed oldName newName list (renameOrAppendInList list oldName newName) ↔
      list.count oldName ≤ 1 := by
  unfold renameOrAppendInList
  by_cases h : oldName ∈ list
  · rw [if_pos h]
    exact listRenamed_replace_iff hne h
  · rw [if_neg h, List.count_eq_zero.2 h]
    exact iff_of_true (.inl ⟨h, .inr rfl⟩) (Nat.zero_le 1)

/-- `renameExistingInList` renames or drops every entry of the name. -/
theorem listRenamed_renameExisting_iff (hne : oldName ≠ newName) :
    ListRenamed oldName newName list (renameExistingInList list oldName newName) ↔
      list.count oldName ≤ 1 := by
  unfold renameExistingInList
  rw [if_neg hne]
  by_cases h : oldName ∈ list
  · by_cases hnew : newName ∈ list
    · rw [if_pos hnew]
      constructor
      · intro hrenamed
        exact hrenamed.count_le_one (by simp)
      · intro hcount
        obtain ⟨outer, inner, rfl, houter, hinner⟩ := exists_only h hcount
        refine .inr ⟨outer, inner, rfl, hinner, .inr ⟨hnew, ?_⟩⟩
        rw [List.filter_append, List.filter_cons_of_neg (by simp), filter_ne_of_notMem houter,
          filter_ne_of_notMem hinner]
    · rw [if_neg hnew]
      exact listRenamed_replace_iff hne h
  · rw [map_replace_of_notMem h, filter_ne_of_notMem h, ite_self, List.count_eq_zero.2 h]
    exact iff_of_true (.inl ⟨h, .inl rfl⟩) (Nat.zero_le 1)

end Names

/-! ### The scope -/

section ScopeEntries

variable {name other : String} {scope outer inner : List (String × SymbolInfo)}
  {entry : String × SymbolInfo}

/-- `cleared` is `scope` without its innermost entry of a name. -/
def ClearedOf (name : String) (scope cleared : List (String × SymbolInfo)) : Prop :=
  (cleared = scope ∧ ∀ entry ∈ scope, entry.1 ≠ name) ∨
    ∃ outer entry inner, scope = outer ++ entry :: inner ∧ entry.1 = name ∧
      (∀ later ∈ inner, later.1 ≠ name) ∧ cleared = outer ++ inner

theorem lastEntry_eq_none : lastEntry scope name = none ↔ ∀ entry ∈ scope, entry.1 ≠ name := by
  rw [lastEntry, splitLast_eq_none]
  simp

theorem lastEntry_eq_some :
    lastEntry scope name = some (outer, entry, inner) ↔
      scope = outer ++ entry :: inner ∧ entry.1 = name ∧ ∀ later ∈ inner, later.1 ≠ name := by
  rw [lastEntry, splitLast_eq_some]
  simp

theorem clearedOf_erase (scope : List (String × SymbolInfo)) (name : String) :
    ClearedOf name scope (eraseScopeEntriesByKey scope name) := by
  unfold eraseScopeEntriesByKey
  cases hlast : lastEntry scope name with
  | none => exact .inl ⟨rfl, lastEntry_eq_none.1 hlast⟩
  | some parts =>
      obtain ⟨outer, entry, inner⟩ := parts
      obtain ⟨hscope, hname, hinner⟩ := lastEntry_eq_some.1 hlast
      exact .inr ⟨outer, entry, inner, hscope, hname, hinner, rfl⟩

theorem mem_of_mem_erase (name : String) (h : entry ∈ eraseScopeEntriesByKey scope name) :
    entry ∈ scope := by
  rcases clearedOf_erase scope name with ⟨hsame, -⟩ | ⟨outer, last, inner, hscope, -, -, hcleared⟩
  · rwa [hsame] at h
  · rw [hcleared] at h
    rw [hscope]
    rcases List.mem_append.1 h with h | h
    · exact List.mem_append_left _ h
    · exact List.mem_append_right _ (List.mem_cons_of_mem _ h)

/-- The innermost entry is the one that a search from the end finds. -/
theorem lookup_reverse : scope.reverse.lookup name = (lastEntry scope name).map (·.2.1.2) := by
  have hnone : ∀ scope : List (String × SymbolInfo), (∀ entry ∈ scope, entry.1 ≠ name) →
      scope.reverse.lookup name = none := by
    intro scope h
    rw [List.lookup_eq_none_iff]
    intro entry hentry
    simpa using Ne.symm (h entry (List.mem_reverse.1 hentry))
  cases hlast : lastEntry scope name with
  | none => exact hnone scope (lastEntry_eq_none.1 hlast)
  | some parts =>
      obtain ⟨outer, entry, inner⟩ := parts
      obtain ⟨rfl, hname, hinner⟩ := lastEntry_eq_some.1 hlast
      rw [List.reverse_append, List.reverse_cons, List.append_assoc, List.lookup_append,
        hnone inner hinner, Option.none_or, List.singleton_append, List.lookup_cons,
        show (name == entry.1) = true by simp [hname]]
      rfl

theorem lookup_erase (hne : name ≠ other) :
    (eraseScopeEntriesByKey scope other).reverse.lookup name = scope.reverse.lookup name := by
  rcases clearedOf_erase scope other with
    ⟨hsame, -⟩ | ⟨outer, entry, inner, hscope, hentry, -, hcleared⟩
  · rw [hsame]
  · rw [hcleared, hscope, List.reverse_append, List.reverse_append, List.reverse_cons,
      List.append_assoc, List.lookup_append, List.lookup_append, List.singleton_append,
      List.lookup_cons, show (name == entry.1) = false by simp [hentry, hne]]

theorem length_erase :
    (eraseScopeEntriesByKey scope name).length = scope.length ↔
      scope.reverse.lookup name = none := by
  rw [lookup_reverse, eraseScopeEntriesByKey]
  cases hlast : lastEntry scope name with
  | none => simp
  | some parts =>
      obtain ⟨outer, entry, inner⟩ := parts
      obtain ⟨rfl, -, -⟩ := lastEntry_eq_some.1 hlast
      simp

theorem erase_of_lookup (h : scope.reverse.lookup name = none) :
    eraseScopeEntriesByKey scope name = scope := by
  rw [lookup_reverse, Option.map_eq_none_iff] at h
  rw [eraseScopeEntriesByKey, h]

theorem map_fst_updateLastEntry (update : SymbolInfo → SymbolInfo) :
    (updateLastEntry scope name update).map Prod.fst = scope.map Prod.fst := by
  unfold updateLastEntry
  split
  · rename_i outer entry inner hlast
    obtain ⟨rfl, -, -⟩ := lastEntry_eq_some.1 hlast
    rw [List.map_append, List.map_append]
    rfl
  · rfl

/-- The innermost entry of a name is the updated one or what it was. -/
theorem lookup_updateLastEntry (update : SymbolInfo → SymbolInfo) :
    (updateLastEntry scope name update).reverse.lookup other =
      (scope.reverse.lookup other).map fun info => if other = name then update info else info := by
  unfold updateLastEntry
  split
  · rename_i outer entry inner hlast
    obtain ⟨rfl, rfl, hinner⟩ := lastEntry_eq_some.1 hlast
    obtain ⟨key, info⟩ := entry
    simp only [List.reverse_append, List.reverse_cons, List.append_assoc, List.lookup_append,
      List.singleton_append, List.lookup_cons]
    by_cases hother : other = key
    · subst hother
      have hnone : inner.reverse.lookup other = none := by
        rw [List.lookup_eq_none_iff]
        intro entry hentry
        simpa using Ne.symm (hinner entry (List.mem_reverse.1 hentry))
      rw [hnone, beq_self_eq_true, Option.none_or, Option.none_or, Option.map_some, if_pos rfl]
    · simp only [beq_eq_false_iff_ne.2 hother, if_neg hother, Option.map_id']
  · rename_i hlast
    by_cases hother : other = name
    · rw [hother, lookup_reverse, hlast]
      rfl
    · simp only [if_neg hother, Option.map_id']

end ScopeEntries

/-! ### What a rename is to do -/

inductive RenameKind where
  | entry
  | array
  | compound
  deriving DecidableEq, Repr

namespace RenameKind

def rename : RenameKind → SymbolTable → String → String → Bool × SymbolTable
  | entry => SymbolTable.renameSymbolEntry
  | array => SymbolTable.renameArraySymbol
  | compound => SymbolTable.renameCompoundSymbol

def accepts : RenameKind → SymbolInfo → Bool
  | entry, _ => true
  | array, info => info.arrayInfo.isSome
  | compound, info => info.compoundInfo.isSome

def update (newName : String) : RenameKind → SymbolInfo → SymbolInfo
  | entry, info => info
  | array, info => { info with arrayInfo := info.arrayInfo.map ({ · with name := newName }) }
  | compound, info => { info with compoundInfo := info.compoundInfo.map ({ · with name := newName }) }

/-- The names of the slots of a symbol, with those they get: an array has a slot for each element. -/
def slotNames (oldName newName : String) : RenameKind → SymbolInfo → List (String × String)
  | array, info => (info.arrayInfo.map fun array => elementLabels array newName).getD []
  | _, _ => [(oldName, newName)]

theorem rename_eq (kind : RenameKind) (st : SymbolTable) (oldName newName : String) :
    kind.rename st oldName newName =
      SymbolTable.renameEntry kind.accepts (kind.update newName) (kind.slotNames oldName newName) st
        oldName newName := by
  cases kind <;> rfl

/-- The innermost entry of the name is a symbol of the kind. -/
def Found (kind : RenameKind) (st : SymbolTable) (name : String) : Prop :=
  ∃ info, st.scopeEntry name = some info ∧ kind.accepts info

end RenameKind

/-- The elements of an array are held in a vector. -/
def SymbolTable.ArraysSized (st : SymbolTable) : Prop :=
  ∀ entry ∈ st.currentScope, ∀ info, entry.2.arrayInfo = some info → info.size < 2 ^ 63

/-- After a rename exactly the innermost entry of the old name has the new name, in the scope, in the
lists of names and on the stack.  The scope has lost the innermost entry that the new name had before;
all others of both names are there, and so is everything else. -/
structure Renamed (kind : RenameKind) (st : SymbolTable) (oldName newName : String)
    (st' : SymbolTable) : Prop where
  scope : ∃ cleared outer info inner info', ClearedOf newName st.currentScope cleared ∧
    cleared = outer ++ (oldName, info) :: inner ∧ (∀ entry ∈ inner, entry.1 ≠ oldName) ∧
    st'.currentScope = outer ++ (newName, info') :: inner ∧ info'.name = newName ∧
    st'.main = relabelTopmost (kind.slotNames oldName newName info) st.main
  newSymbol : ListRenamed oldName newName st.newSymbol st'.newSymbol
  declaredSymbols : ListRenamed oldName newName st.declaredSymbols st'.declaredSymbols
  others : { st with
    currentScope := st'.currentScope
    newSymbol := st'.newSymbol
    declaredSymbols := st'.declaredSymbols
    main := st'.main } = st'

/-- A rename that is refused changes nothing, one that is not renames the innermost entry, and renaming
a name to itself changes nothing. -/
structure RenamesInnermost (kind : RenameKind) (st : SymbolTable) (oldName newName : String) :
    Prop where
  refused : (kind.rename st oldName newName).1 = false → (kind.rename st oldName newName).2 = st
  renamed : (kind.rename st oldName newName).1 = true → oldName ≠ newName →
    Renamed kind st oldName newName (kind.rename st oldName newName).2
  self : oldName = newName → (kind.rename st oldName newName).2 = st

/-- Where another name is to be renamed and is found, no list of names holds it twice; otherwise the
new name has no entry that would be cleared. -/
def RenameSafe (kind : RenameKind) (st : SymbolTable) (oldName newName : String) : Prop :=
  (oldName ≠ newName ∧ kind.Found st oldName →
    st.newSymbol.count oldName ≤ 1 ∧ st.declaredSymbols.count oldName ≤ 1) ∧
  (¬ (oldName ≠ newName ∧ kind.Found st oldName) → st.scopeEntry newName = none)

section Rename

variable {kind : RenameKind} {st : SymbolTable} {oldName newName : String}

/-- The table with the innermost entry of a name cleared. -/
def SymbolTable.clear (st : SymbolTable) (name : String) : SymbolTable :=
  { st with currentScope := eraseScopeEntriesByKey st.currentScope name }

/-- A rename that finds nothing of its kind has cleared the new name all the same. -/
theorem rename_of_not_found (h : ¬ kind.Found (st.clear newName) oldName) :
    kind.rename st oldName newName = (false, st.clear newName) := by
  rw [kind.rename_eq, SymbolTable.renameEntry]
  cases hlast : lastEntry (st.clear newName).currentScope oldName with
  | none =>
      simp only [SymbolTable.clear] at hlast
      simp only [hlast]
      rfl
  | some parts =>
      obtain ⟨outer, entry, inner⟩ := parts
      have hrefused : ¬ kind.accepts entry.2 := by
        intro haccepts
        refine h ⟨entry.2, ?_, haccepts⟩
        rw [SymbolTable.scopeEntry, lookup_reverse, hlast]
        rfl
      simp only [SymbolTable.clear] at hlast
      simp only [hlast, if_neg hrefused]
      rfl

/-- A rename that finds a symbol of its kind. -/
theorem rename_of_found (h : kind.Found (st.clear newName) oldName) :
    ∃ outer info inner, (st.clear newName).currentScope = outer ++ (oldName, info) :: inner ∧
      (∀ entry ∈ inner, entry.1 ≠ oldName) ∧
      kind.rename st oldName newName =
        (true, { st with
          currentScope := outer ++ (newName, { kind.update newName info with name := newName }) :: inner
          newSymbol := renameOrAppendInList st.newSymbol oldName newName
          declaredSymbols := renameExistingInList st.declaredSymbols oldName newName
          main := relabel (kind.slotNames oldName newName info) st.main }) := by
  obtain ⟨info, hinfo, haccepts⟩ := h
  rw [SymbolTable.scopeEntry, lookup_reverse, Option.map_eq_some_iff] at hinfo
  obtain ⟨⟨outer, entry, inner⟩, hlast, rfl⟩ := hinfo
  obtain ⟨hscope, hname, hinner⟩ := lastEntry_eq_some.1 hlast
  have hentry : entry = (oldName, entry.2) := Prod.ext hname rfl
  refine ⟨outer, entry.2, inner, by rw [← hentry]; exact hscope, hinner, ?_⟩
  simp only [SymbolTable.clear] at hlast
  rw [kind.rename_eq, SymbolTable.renameEntry]
  simp only [hlast, if_pos haccepts]

theorem found_clear_iff (hne : oldName ≠ newName) :
    kind.Found (st.clear newName) oldName ↔ kind.Found st oldName := by
  unfold RenameKind.Found SymbolTable.scopeEntry SymbolTable.clear
  simp only [lookup_erase hne]

theorem clear_eq_self_iff {name : String} : st.clear name = st ↔ st.scopeEntry name = none := by
  constructor
  · intro h
    exact length_erase.1 (congrArg (fun st : SymbolTable => st.currentScope.length) h)
  · intro h
    rw [SymbolTable.clear, erase_of_lookup h]

/-- The topmost slots of a symbol are renamed together. -/
theorem relabel_slotNames (hne : oldName ≠ newName) {info : SymbolInfo}
    (hsize : ∀ array, info.arrayInfo = some array → array.size < 2 ^ 63) (slots : List StackElement) :
    relabel (kind.slotNames oldName newName info) slots =
      relabelTopmost (kind.slotNames oldName newName info) slots := by
  have hone : relabel [(oldName, newName)] slots = relabelTopmost [(oldName, newName)] slots := by
    refine relabel_pointwise (by simp) ?_
    simpa using Ne.symm hne
  cases kind with
  | entry => exact hone
  | compound => exact hone
  | array =>
      rw [RenameKind.slotNames]
      cases harray : info.arrayInfo with
      | none => exact (relabelTopmost_self (by simp)).symm
      | some array => exact relabel_elementLabels newName (hsize array harray) slots

/-- **A rename is right exactly for safe names.** -/
theorem renamesInnermost_iff (kind : RenameKind) (st : SymbolTable) (hsized : st.ArraysSized)
    (oldName newName : String) :
    RenamesInnermost kind st oldName newName ↔ RenameSafe kind st oldName newName := by
  by_cases hfound : oldName ≠ newName ∧ kind.Found st oldName
  -- the name is found, and only the two lists of names can go wrong
  · obtain ⟨hne, hfind⟩ := hfound
    obtain ⟨outer, info, inner, hscope, hinner, hrename⟩ :=
      rename_of_found ((found_clear_iff hne).2 hfind)
    have hsafe : RenameSafe kind st oldName newName ↔
        st.newSymbol.count oldName ≤ 1 ∧ st.declaredSymbols.count oldName ≤ 1 := by
      constructor
      · intro h
        exact h.1 ⟨hne, hfind⟩
      · intro h
        exact ⟨fun _ => h, fun hnot => absurd ⟨hne, hfind⟩ hnot⟩
    rw [hsafe, ← listRenamed_renameOrAppend_iff hne, ← listRenamed_renameExisting_iff hne]
    constructor
    · rintro ⟨-, hrenamed, -⟩
      rw [hrename] at hrenamed
      obtain ⟨-, hnewSymbol, hdeclared, -⟩ := hrenamed rfl hne
      exact ⟨hnewSymbol, hdeclared⟩
    · rintro ⟨hnewSymbol, hdeclared⟩
      refine ⟨?_, ?_, fun h => absurd h hne⟩
      · rw [hrename]
        exact nofun
      · rw [hrename]
        intro _ _
        refine ⟨?_, hnewSymbol, hdeclared, rfl⟩
        refine ⟨_, outer, info, inner, _, clearedOf_erase st.currentScope newName, hscope, hinner, rfl,
          rfl, relabel_slotNames hne ?_ st.main⟩
        intro array harray
        refine hsized (oldName, info) (mem_of_mem_erase newName ?_) array harray
        rw [show eraseScopeEntriesByKey st.currentScope newName = _ from hscope]
        simp
  -- nothing is found, and the refusal must not have erased an entry
  · have hsafe : RenameSafe kind st oldName newName ↔ st.scopeEntry newName = none := by
      constructor
      · intro h
        exact h.2 hfound
      · intro h
        exact ⟨fun hyes => absurd hyes hfound, fun _ => h⟩
    rw [hsafe]
    constructor
    · rintro ⟨hrefused, -, hself⟩
      rw [← clear_eq_self_iff]
      by_cases hclear : kind.Found (st.clear newName) oldName
      -- the name itself was looked for, and an entry further out was found
      · have hsame : oldName = newName := by
          by_contra hne
          exact hfound ⟨hne, (found_clear_iff hne).1 hclear⟩
        obtain ⟨outer, info, inner, hscope, -, hrename⟩ := rename_of_found hclear
        have hlength := congrArg (fun st : SymbolTable => st.currentScope.length) (hself hsame)
        rw [hrename] at hlength
        rw [clear_eq_self_iff, SymbolTable.scopeEntry, ← length_erase]
        rw [show eraseScopeEntriesByKey st.currentScope newName = _ from hscope]
        simpa using hlength
      · rw [rename_of_not_found hclear] at hrefused
        exact hrefused rfl
    · intro hnone
      have hclear : ¬ kind.Found (st.clear newName) oldName := by
        rw [clear_eq_self_iff.2 hnone]
        rintro ⟨info, hinfo, haccepts⟩
        by_cases hne : oldName = newName
        · rw [hne, hnone] at hinfo
          exact nomatch hinfo
        · exact hfound ⟨hne, info, hinfo, haccepts⟩
      rw [← clear_eq_self_iff] at hnone
      have hrename := rename_of_not_found hclear
      rw [hnone] at hrename
      refine ⟨?_, ?_, ?_⟩
      · rw [hrename]
        exact fun _ => rfl
      · rw [hrename]
        exact nofun
      · rw [hrename]
        exact fun _ => rfl

/-- A rename of a shadowed name in a scope without the new one. -/
theorem renamesInnermost_iff_shadowed :
    RenamesInnermost .entry
        { main := [⟨"value", "int", "02"⟩, ⟨"value", "int", "01"⟩], alt := [],
          newSymbol := ["value"], declaredSymbols := ["value"],
          currentScope := [("value", { name := "value", type := "int" }),
            ("value", { name := "value", type := "int" })] } "value" "result" ↔
      RenameSafe .entry
        { main := [⟨"value", "int", "02"⟩, ⟨"value", "int", "01"⟩], alt := [],
          newSymbol := ["value"], declaredSymbols := ["value"],
          currentScope := [("value", { name := "value", type := "int" }),
            ("value", { name := "value", type := "int" })] } "value" "result" := by
  refine renamesInnermost_iff .entry _ ?_ "value" "result"
  intro entry hentry info hinfo
  obtain rfl : entry = ("value", { name := "value", type := "int" }) := by simpa using hentry
  exact nomatch hinfo

/-- A refused rename has cleared the new name, a name renamed to itself loses its entry, and a name
that is twice on the stack is renamed twice in the list of new symbols. -/
theorem rename_not_innermost :
    ¬ RenamesInnermost .entry
        { main := [], alt := [], currentScope := [("a", { name := "a", type := "int" })] } "b" "a" ∧
    ¬ RenamesInnermost .entry
        { main := [], alt := [], currentScope := [("a", { name := "a", type := "int" })] } "a" "a" ∧
    ¬ RenamesInnermost .entry
        { main := [⟨"value", "int", "02"⟩, ⟨"value", "int", "01"⟩], alt := [],
          newSymbol := ["value", "value"], declaredSymbols := ["value"],
          currentScope := [("value", { name := "value", type := "int" }),
            ("value", { name := "value", type := "int" })] } "value" "result" := by
  refine ⟨?_, ?_, ?_⟩
  · rintro ⟨hrefused, -, -⟩
    exact absurd (congrArg SymbolTable.currentScope (hrefused (by decide))) (by decide)
  · rintro ⟨-, -, hself⟩
    exact absurd (congrArg SymbolTable.currentScope (hself rfl)) (by decide)
  · rintro ⟨-, hrenamed, -⟩
    obtain ⟨-, hnewSymbol, -, -⟩ := hrenamed (by decide) (by decide)
    exact absurd (hnewSymbol.count_le_one (by decide)) (by decide)

end Rename

end AtomicProof
