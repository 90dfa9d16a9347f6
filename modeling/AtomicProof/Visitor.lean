/-
The code generator as a machine of its own.

While it emits instructions the visitor changes the picture of the stacks: it rolls, pushes and pops
symbolic slots and invents names for results.  This module models these operations of `Scope` and of
the generator as steps that emit instructions, and says once what each does to the named values of
the two run-time stacks.

Main definitions:

* `VisitorState` — the picture, the fixed area and the supply of placeholder names;
* `Visit` — a step of the visitor;
* `Reaches` — a step keeps the picture and the run-time stacks together;
* `takeNamed` — the stack without the topmost slot of a name.

Main results:

* `reaches_bring` — bringing a name to the top moves its slot only.
-/

import AtomicProof.SlotMoves

set_option autoImplicit false

namespace AtomicProof

/-! ### Steps of the visitor -/

/-- `CompilerPlaceholder::toString`. -/
def compilerPlaceholder (id : ℕ) : String := "/CompilerPlaceholder_" ++ toString id ++ "/"

/-- The picture of the stacks, the fixed area from the top down and the number of the next
`CompilerPlaceholder`. -/
structure VisitorState where
  table : SymbolTable
  fixed : List StackElement := []
  nextId : ℕ := 0
  deriving DecidableEq, Repr

/-- A step of the visitor: the instructions it emits and the state it leaves. -/
abbrev Visit := VisitorState → Except String (List String × VisitorState)

namespace Visit

def emit (code : List String) : Visit := fun s => .ok (code, s)

def seq (first second : Visit) : Visit := fun s =>
  (first s).bind fun result =>
    (second result.2).map fun result' => (result.1 ++ result'.1, result'.2)

def fail (error : String) : Visit := fun _ => .error error

/-- `m_scopePtr->roll`, after `emitRoll`, for a slot that is not on top. -/
def rollToTop (pos : ℕ) : Visit := fun s =>
  if pos = 0 then .ok ([], s)
  else (s.table.roll pos).map fun table => (emitRoll pos, { s with table })

def push (element : StackElement) : Visit := fun s =>
  (pushSlot s.table.main element).map fun main =>
    ([], { s with table := { s.table with
      main, newSymbol := s.table.newSymbol ++ [element.name] } })

/-- A fresh `CompilerPlaceholder` is pushed; its text is its data as well. -/
def pushPlaceholder (type : String) : Visit := fun s =>
  push ⟨compilerPlaceholder s.nextId, type, compilerPlaceholder s.nextId⟩
    { s with nextId := s.nextId + 1 }

def pop : Visit := fun s => .ok ([], { s with table := s.table.pop })

theorem seq_ok {first second : Visit} {s s' : VisitorState} {code : List String}
    (h : seq first second s = .ok (code, s')) :
    ∃ code₁ s₁ code₂, first s = .ok (code₁, s₁) ∧ second s₁ = .ok (code₂, s') ∧
      code = code₁ ++ code₂ := by
  unfold seq at h
  cases hfirst : first s with
  | error error => simp [hfirst, Except.bind] at h
  | ok result =>
      cases hsecond : second result.2 with
      | error error => simp [hfirst, hsecond, Except.bind, Except.map] at h
      | ok result' =>
          simp only [hfirst, hsecond, Except.bind, Except.map, Except.ok.injEq,
            Prod.mk.injEq] at h
          obtain ⟨rfl, rfl⟩ := h
          exact ⟨_, _, _, rfl, hsecond, rfl⟩

end Visit

/-! ### Slots of a name -/

/-- The stack without the topmost slot of a name. -/
def takeNamed (name : String) (slots : List (String × Bytes)) : List (String × Bytes) :=
  slots.eraseP fun slot => slot.1 == name

def findNamed (name : String) (slots : List (String × Bytes)) : Option (String × Bytes) :=
  slots.find? fun slot => slot.1 == name

variable {name : String} {slot : String × Bytes} {pos : ℕ}

theorem name_of_findNamed {slots : List (String × Bytes)}
    (h : findNamed name slots = some slot) : slot.1 = name := by
  simpa using List.find?_some h

theorem findNamed_cons_ne (h : slot.1 ≠ name)
    (slots : List (String × Bytes)) : findNamed name (slot :: slots) = findNamed name slots := by
  rw [findNamed, List.find?_cons_of_neg (by simpa using h), ← findNamed]

theorem takeNamed_cons_ne (h : slot.1 ≠ name) (slots : List (String × Bytes)) :
    takeNamed name (slot :: slots) = slot :: takeNamed name slots := by
  rw [takeNamed, List.eraseP_cons_of_neg (by simpa using h), ← takeNamed]

theorem takeNamed_cons_self (slot : String × Bytes) (slots : List (String × Bytes)) :
    takeNamed slot.1 (slot :: slots) = slots := by
  rw [takeNamed, List.eraseP_cons_of_pos (by simp)]

/-- Taking a slot out does not hide the slots of other names. -/
theorem findNamed_takeNamed {name' : String} (h : name ≠ name') :
    ∀ slots : List (String × Bytes), findNamed name (takeNamed name' slots) = findNamed name slots := by
  intro slots
  induction slots with
  | nil => rfl
  | cons slot slots ih =>
      by_cases hslot : slot.1 = name'
      · subst hslot
        rw [takeNamed_cons_self, findNamed_cons_ne h.symm]
      · rw [takeNamed_cons_ne hslot]
        by_cases hname : slot.1 = name
        · rw [findNamed, findNamed, List.find?_cons_of_pos (by simpa using hname),
            List.find?_cons_of_pos (by simpa using hname)]
        · rw [findNamed_cons_ne hname, findNamed_cons_ne hname, ih]

/-- A slot that is found is at the place of its name, and taking it out is erasing there. -/
theorem findNamed_of_findIdx? {slots : List (String × Bytes)}
    (h : (slots.map Prod.fst).findIdx? (· == name) = some pos) :
    ∃ hlt : pos < slots.length, findNamed name slots = some slots[pos] ∧
      takeNamed name slots = slots.eraseIdx pos := by
  rw [List.findIdx?_map] at h
  obtain ⟨hlt, hfound, -⟩ := List.findIdx?_eq_some_iff_getElem.1 h
  refine ⟨hlt, ?_, ?_⟩
  · rw [findNamed, List.find?_eq_some_iff_getElem]
    refine ⟨hfound, pos, hlt, rfl, ?_⟩
    intro j hj
    simpa using (List.findIdx?_eq_some_iff_getElem.1 h).2.2 j hj
  · rw [takeNamed, List.eraseP_eq_eraseIdx]
    have h' : slots.findIdx? (fun slot => slot.1 == name) = some pos := h
    rw [h']

/-! ### Steps that keep the picture -/

variable {env : ScriptEnv} {s s' s'' : VisitorState} {slots slots' slots'' : NamedStacks}
  {code code' : List String}

/-- Emitted instructions take the values of `slots` to those of `slots'`, and the picture follows;
names are bound as before. -/
structure Reaches (env : ScriptEnv) (s : VisitorState) (slots : NamedStacks) (code : List String)
    (s' : VisitorState) (slots' : NamedStacks) : Prop where
  takes : Takes env code slots.values slots'.values
  depicts : Depicts s'.table slots'
  resolve : s'.table.resolveBindSymbol = s.table.resolveBindSymbol

theorem Reaches.refl (h : Depicts s.table slots) : Reaches env s slots [] s slots :=
  ⟨Takes.refl _, h, rfl⟩

theorem Reaches.trans (h : Reaches env s slots code s' slots')
    (h' : Reaches env s' slots' code' s'' slots'') :
    Reaches env s slots (code ++ code') s'' slots'' :=
  ⟨h.takes.trans h'.takes, h'.depicts, h'.resolve.trans h.resolve⟩

theorem Depicts.getPos {st : SymbolTable} (h : Depicts st slots) (name : String) :
    st.getPos name = (slots.1.map Prod.fst).findIdx? (· == st.resolveBindSymbol name) := by
  have hmain : st.main.map StackElement.name = slots.1.map Prod.fst := congrArg Prod.fst h.names
  rw [SymbolTable.getPos, posOf, ← hmain, List.findIdx?_map]
  rfl

theorem Depicts.findNamed_of_getPos {st : SymbolTable} (h : Depicts st slots)
    (hpos : st.getPos name = some pos) :
    ∃ hlt : pos < slots.1.length,
      findNamed (st.resolveBindSymbol name) slots.1 = some slots.1[pos] ∧
        takeNamed (st.resolveBindSymbol name) slots.1 = slots.1.eraseIdx pos :=
  findNamed_of_findIdx? (by rw [← h.getPos]; exact hpos)

variable (env) in
/-- Rolling to the top. -/
theorem reaches_rollToTop (h : Depicts s.table slots) (hpos : pos < slots.1.length) :
    ∃ s', Visit.rollToTop pos s = .ok (emitRoll pos, s') ∧ s'.nextId = s.nextId ∧
      s'.fixed = s.fixed ∧
      Reaches env s slots (emitRoll pos) s' (slots.1[pos] :: slots.1.eraseIdx pos, slots.2) := by
  have hlt : pos < s.table.main.length := by
    rw [h.main_length]
    exact hpos
  obtain ⟨main, alt⟩ := slots
  have hvalues : Takes env (emitRoll pos) (NamedStacks.values (main, alt))
      (NamedStacks.values (main[pos] :: main.eraseIdx pos, alt)) := by
    have hbound := h.fits.main_bound
    have hsize : pos < 2 ^ 63 := by
      rw [maxSlots] at hbound
      omega
    have hvalid : pos < (main.map Prod.snd).length := by simpa using hpos
    have htakes := @takes_roll_of_lt env pos _ hvalid hsize (alt.map Prod.snd)
    simpa [NamedStacks.values, List.eraseIdx_map] using htakes
  have hnames : s.table.main.map StackElement.name = main.map Prod.fst := congrArg Prod.fst h.names
  have halt : s.table.alt.map StackElement.name = alt.map Prod.fst := congrArg Prod.snd h.names
  have hname : s.table.main[pos].name = main[pos].1 := by
    have := congrArg (fun names => names[pos]?) hnames
    simpa [hlt, hpos] using this
  have hdepicts : Depicts { s.table with main := s.table.main[pos] :: s.table.main.eraseIdx pos }
      (main[pos] :: main.eraseIdx pos, alt) := by
    refine ⟨?_, ?_, h.alt_size⟩
    · simp [SymbolTable.names, ← List.eraseIdx_map, hnames, halt, hname]
    · rw [combinedStackSize_cons, combinedStackSize_eraseIdx hlt]
      exact h.main_size
  have hroll := SymbolTable.roll_of_lt hlt
  unfold Visit.rollToTop
  split_ifs with h0
  · subst h0
    have hsame : s.table.roll 0 = .ok s.table := by
      rw [SymbolTable.roll, SymbolTable.validateStackOperation_of_lt hlt]
      rfl
    rw [← Except.ok.inj (hsame.symm.trans hroll)] at hdepicts
    exact ⟨s, rfl, rfl, rfl, hvalues, hdepicts, rfl⟩
  · refine ⟨{ s with table := { s.table with
      main := s.table.main[pos] :: s.table.main.eraseIdx pos } }, ?_, rfl, rfl, hvalues, hdepicts,
      ?_⟩
    · rw [hroll]
      rfl
    · exact s.table.resolveBindSymbol_slots _ s.table.alt s.table.newSymbol

variable (env) in
/-- **Bringing a name to the top moves its slot only.** -/
theorem reaches_bring (h : Depicts s.table slots) (hpos : s.table.getPos name = some pos) :
    ∃ s' slot, Visit.rollToTop pos s = .ok (emitRoll pos, s') ∧ s'.nextId = s.nextId ∧
      s'.fixed = s.fixed ∧ findNamed (s.table.resolveBindSymbol name) slots.1 = some slot ∧
      Reaches env s slots (emitRoll pos) s'
        (slot :: takeNamed (s.table.resolveBindSymbol name) slots.1, slots.2) := by
  obtain ⟨hlt, hfind, htake⟩ := h.findNamed_of_getPos hpos
  obtain ⟨s', hrun, hid, hfixed, hreaches⟩ := reaches_rollToTop env h hlt
  exact ⟨s', _, hrun, hid, hfixed, hfind, by rw [htake]; exact hreaches⟩

/-- A pushed symbol depicts any value on top. -/
theorem depicts_push {element : StackElement} {main alt : List (String × Bytes)}
    (h : Depicts s.table (main, alt)) (hpush : Visit.push element s = .ok (code, s')) :
    code = [] ∧ s'.nextId = s.nextId ∧ s'.fixed = s.fixed ∧
      s'.table.resolveBindSymbol = s.table.resolveBindSymbol ∧
      ∀ value, Depicts s'.table ((element.name, value) :: main, alt) := by
  unfold Visit.push pushSlot at hpush
  split_ifs at hpush with hover
  · cases hpush
  · cases hpush
    refine ⟨rfl, rfl, rfl, s.table.resolveBindSymbol_slots _ s.table.alt _, ?_⟩
    intro value
    refine ⟨?_, ?_, h.alt_size⟩
    · have hnames := h.names
      simp only [SymbolTable.names, Prod.map, Prod.mk.injEq] at hnames ⊢
      simp [hnames]
    · rw [combinedStackSize_cons]
      omega

theorem reaches_push {element : StackElement} {value : Bytes} (h : Depicts s.table slots)
    (hcode : Takes env code slots.values (value :: slots.values.1, slots.values.2))
    (hpush : Visit.push element s = .ok (code', s')) :
    code' = [] ∧ s'.nextId = s.nextId ∧ s'.fixed = s.fixed ∧
      Reaches env s slots code s' ((element.name, value) :: slots.1, slots.2) := by
  obtain ⟨hnil, hid, hfixed, hresolve, hdepicts⟩ := depicts_push h hpush
  exact ⟨hnil, hid, hfixed, hcode, hdepicts value, hresolve⟩

/-- The slot that a pop removes from the picture. -/
theorem depicts_pop {main alt : List (String × Bytes)} (h : Depicts s.table (slot :: main, alt)) :
    Depicts s.table.pop (main, alt) ∧
      s.table.pop.resolveBindSymbol = s.table.resolveBindSymbol := by
  have hnames := h.names
  have hsize := h.main_size
  simp only [SymbolTable.names, Prod.map, List.map_cons, Prod.mk.injEq] at hnames
  cases hmain : s.table.main with
  | nil => simp [hmain] at hnames
  | cons element rest =>
      rw [hmain, List.map_cons, List.cons.injEq] at hnames
      rw [hmain, combinedStackSize_cons] at hsize
      refine ⟨⟨?_, ?_, ?_⟩, ?_⟩
      · simp [SymbolTable.pop, hmain, SymbolTable.names, hnames]
      · simp only [SymbolTable.pop, hmain]
        omega
      · simp only [SymbolTable.pop, hmain]
        exact h.alt_size
      · simp only [SymbolTable.pop, hmain]
        exact s.table.resolveBindSymbol_slots _ s.table.alt _

end AtomicProof
