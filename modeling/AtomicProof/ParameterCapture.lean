/-
The slots of the parameters of an inlined private function.

A parameter is to stand for the slot of its argument, under every path that it is bound under.  The loop of
`ParameterBinding` resolves the name of an argument in the frame that the later parameters are bound in
already, and what it binds a path to is resolved in the finished frame, so that a name of the caller can be
taken for a parameter of the same name.  Whether that happens can be said by the table of the caller and by
the bindings of the parameters to the slots.

Main definitions:

* `PrivateCall.turns` — the parameters with the roots that their arguments stand for in the caller;
* `PrivateCall.LooksUp` — every argument is looked up as in the caller;
* `PrivateCall.NoCircle` — the bindings of the parameters close no circle;
* `PrivateCall.Undisturbed` — from no slot a chain leads to a parameter with another one;
* `PrivateCall.StandForSlots` — the parameters stand for the slots of their arguments.

Main results:

* `PrivateCall.bindParameters_widens` — the frame that the loop makes;
* `PrivateCall.standForSlots_iff` — what is left to ask once the arguments are looked up;
* `PrivateCall.privateFunctionResolution_iff` — **the parameters stand for the slots of their arguments
  where nothing is captured**, and for parameters of basic types only there.
-/

import AtomicProof.AliasChain
import AtomicProof.ParameterBinding

set_option autoImplicit false

namespace AtomicProof

open AliasChain

/-! ### Resolution as a chain -/

namespace SymbolTable

variable {st : SymbolTable} {name target last : String} {steps : ℕ}

/-- The two frames consulted one after the other are the latest binding of the whole table. -/
theorem nextBinding_eq {followed : Bool}
    (h : followed = true ∨ st.isOwnedByActiveScope name = false) :
    st.nextBinding followed name = next st.bindSymbol name := by
  have hpass : (!followed && st.isOwnedByActiveScope name) = false := by
    rcases h with rfl | h
    · rfl
    · rw [h, Bool.and_false]
  have hsplit : latest st.bindSymbol name =
      (latest (st.bindSymbol.drop st.bindStart) name).or
        (latest (st.bindSymbol.take st.bindStart) name) := by
    rw [← latest_append, List.take_append_drop]
  rw [nextBinding, next, hsplit, findLatestBinding, findLatestBinding, hpass]
  rw [← latest.eq_1, ← latest.eq_1]
  cases latest (st.bindSymbol.drop st.bindStart) name with
  | some target => rfl
  | none =>
      rw [Option.none_or]
      cases latest (st.bindSymbol.take st.bindStart) name with
      | some target => rfl
      | none => rfl

theorem next_of_nextBinding {followed : Bool} (h : st.nextBinding followed name = some target) :
    next st.bindSymbol name = some target := by
  by_cases hpass : followed = true ∨ st.isOwnedByActiveScope name = false
  · rw [← nextBinding_eq hpass, h]
  -- an owned name is only looked up in the innermost frame
  · have howned : (!followed && st.isOwnedByActiveScope name) = true := by
      rw [not_or, Bool.not_eq_true, Bool.not_eq_false] at hpass
      rw [hpass.1, hpass.2]
      rfl
    have hnext := @nextBinding_eq st name true (Or.inl rfl)
    rw [← hnext]
    rw [nextBinding] at h ⊢
    cases hfound : findLatestBinding (st.bindSymbol.drop st.bindStart) name with
    | some found =>
        rw [hfound] at h
        exact h
    | none =>
        rw [hfound] at h
        simp only [howned, if_pos] at h
        exact absurd h (by simp)

theorem resolveLoop_of_ends (h : Ends st.bindSymbol steps name last) {turns : ℕ}
    (hturns : steps ≤ turns) : st.resolveLoop turns true name = last := by
  induction h generalizing turns with
  | stop hstop =>
      cases turns with
      | zero => rfl
      | succ turns =>
          rw [Terminal, ← nextBinding_eq (Or.inl rfl)] at hstop
          rw [resolveLoop, hstop]
  | step hnext _ ih =>
      cases turns with
      | zero => omega
      | succ turns =>
          rw [← nextBinding_eq (Or.inl rfl)] at hnext
          rw [resolveLoop, hnext]
          exact ih (by omega)

/-- The names bound in the innermost frame. -/
def activeNames (st : SymbolTable) : List String := (st.bindSymbol.drop st.bindStart).map Prod.fst

theorem findLatestBinding_eq_none {bindings : List (String × String)} :
    findLatestBinding bindings name = none ↔ name ∉ bindings.map Prod.fst := by
  rw [findLatestBinding, List.lookup_eq_none_iff]
  constructor
  · intro h hname
    obtain ⟨binding, hbinding, rfl⟩ := List.mem_map.mp hname
    simpa using h binding (List.mem_reverse.mpr hbinding)
  · intro h binding hbinding
    rw [bne_iff_ne]
    rintro rfl
    exact h (List.mem_map_of_mem (List.mem_reverse.mp hbinding))

/-- A name that the active scope does not own, or that is bound in the innermost frame, is resolved to the
end of its chain. -/
theorem resolveBindSymbol_of_ends
    (hfirst : st.isOwnedByActiveScope name = false ∨ name ∈ st.activeNames)
    (h : Ends st.bindSymbol steps name last) : st.resolveBindSymbol name = last := by
  have hsame : st.nextBinding false name = st.nextBinding true name := by
    rcases hfirst with howned | hactive
    · rw [nextBinding_eq (Or.inr howned), nextBinding_eq (Or.inl rfl)]
    · cases hfound : findLatestBinding (st.bindSymbol.drop st.bindStart) name with
      | none => exact absurd hactive (findLatestBinding_eq_none.mp hfound)
      | some found => rw [nextBinding, nextBinding, hfound]
  rw [resolveBindSymbol, ← resolveLoop_of_ends h h.steps_le]
  cases st.bindSymbol.length with
  | zero => rfl
  | succ turns => rw [resolveLoop, resolveLoop, hsame]

theorem resolveBindSymbol_of_owned (howned : st.isOwnedByActiveScope name = true)
    (hactive : name ∉ st.activeNames) : st.resolveBindSymbol name = name := by
  have hnone : st.nextBinding false name = none := by
    rw [nextBinding, findLatestBinding_eq_none.mpr hactive, howned]
    rfl
  rw [resolveBindSymbol]
  cases st.bindSymbol.length with
  | zero => rfl
  | succ turns => rw [resolveLoop, hnone]

/-- A name that is resolved to an unbound name is resolved to the end of its chain, whatever the
active scope. -/
theorem ends_resolveBindSymbol (h : Ends st.bindSymbol steps name last)
    (hterminal : Terminal st.bindSymbol (st.resolveBindSymbol name)) :
    ∃ steps, Ends st.bindSymbol steps name (st.resolveBindSymbol name) := by
  cases hfirst : st.nextBinding false name with
  | none =>
      have hself : st.resolveBindSymbol name = name := by
        rw [resolveBindSymbol]
        cases st.bindSymbol.length with
        | zero => rfl
        | succ turns => rw [resolveLoop, hfirst]
      rw [hself] at hterminal ⊢
      exact ⟨0, .stop hterminal⟩
  | some target =>
      have hnext := next_of_nextBinding hfirst
      obtain ⟨left, rfl, hrest⟩ := h.tail hnext
      have hresolve : st.resolveBindSymbol name = last := by
        have hlength := h.steps_le
        rw [resolveBindSymbol]
        cases hturns : st.bindSymbol.length with
        | zero => omega
        | succ turns =>
            rw [resolveLoop, hfirst]
            exact resolveLoop_of_ends hrest (by omega)
      rw [hresolve]
      exact ⟨left + 1, h⟩

end SymbolTable

namespace PrivateCall

open SymbolTable

/-! ### The condition -/

/-- A parameter with its argument, and the root that its paths are bound to. -/
structure Turn where
  parameter : ParameterInfo
  argument : StackElement
  argRootName : String
  deriving DecidableEq

section Condition

variable (structs : StructDefinitions) (depth : ℕ) (st : SymbolTable)

/-- The bindings of a parameter, with the slots of the caller that they are to lead to. -/
def Turn.aliases (turn : Turn) : List (Alias String) :=
  if (parseFixedArrayType turn.parameter.type).isSome ∧ turn.parameter.name = turn.argRootName then []
  else (parameterPaths structs depth turn.parameter.type).map fun path =>
    { name := turn.parameter.name ++ path
      target := turn.argRootName ++ path
      slot := st.resolveBindSymbol (turn.argument.name ++ path) }

/-- The bindings of some parameters, in the order of the loop. -/
def aliases : List Turn → List (Alias String)
  | [] => []
  | turn :: later => aliases later ++ turn.aliases structs depth st

/-- What the scope of the call owns after some parameters. -/
def roots : List Turn → List String
  | [] => []
  | turn :: later => roots later ++ parameterRoots structs depth turn.parameter turn.argRootName

/-- A name that the scope of the call owns after some parameters, none of which is bound under it. -/
def Owned (later : List Turn) (name : String) : Prop :=
  OwnedBy (roots structs depth later) name ∧ name ∉ aliasNames (aliases structs depth st later)

instance (later : List Turn) (name : String) : Decidable (Owned structs depth st later name) :=
  inferInstanceAs (Decidable ((∃ root ∈ _, belongsTo root name = true) ∧ _))

/-- The parameters with the roots of their arguments: the argument itself where the scope of the call owns
it, and otherwise what it stands for in the caller. -/
def turns : List (ParameterInfo × StackElement) → List Turn
  | [] => []
  | (parameter, argument) :: later =>
      { parameter := parameter
        argument := argument
        argRootName :=
          if Owned structs depth st (turns later) argument.name then argument.name
          else st.resolveBindSymbol argument.name } :: turns later

/-- The bindings of the caller and those of some parameters. -/
def frameBindings (later : List Turn) : List (String × String) :=
  st.bindSymbol ++ aliasBindings (aliases structs depth st later)

/-- Every argument is looked up as in the caller: its chain through the bindings of the caller and of the
later parameters ends at its own slot, unless the scope of the call owns it; and an array is found under
its own name. -/
def LooksUp : List Turn → Prop
  | [] => True
  | turn :: later =>
      (¬ Owned structs depth st later turn.argument.name →
        ∃ steps, Ends (frameBindings structs depth st later) steps turn.argument.name
          (st.resolveBindSymbol turn.argument.name)) ∧
      ((parseFixedArrayType turn.parameter.type).isSome → st.ArrayNamed turn.argRootName) ∧
      LooksUp later

/-- The bindings of the parameters close no circle. -/
def NoCircle (turns : List Turn) : Prop :=
  ∀ entry ∈ aliases structs depth st turns, ∃ steps last,
    Ends (frameBindings structs depth st turns) steps entry.name last

/-- A path of a parameter with the name of its root is the slot itself, and from the path of any other
root the bindings of the caller lead to a path of a parameter only where that has the same slot. -/
def Undisturbed (turns : List Turn) : Prop :=
  ∀ turn ∈ turns, ∀ path ∈ parameterPaths structs depth turn.parameter.type,
    if turn.argRootName = turn.parameter.name then
      st.resolveBindSymbol (turn.argument.name ++ path) = turn.parameter.name ++ path
    else
      LeadsTo st.bindSymbol (aliases structs depth st turns) (turn.argRootName ++ path)
        (st.resolveBindSymbol (turn.argument.name ++ path))

/-- **No name of the caller is taken for a parameter with another slot.** -/
structure CaptureFree (turns : List Turn) : Prop where
  looksUp : LooksUp structs depth st turns
  noCircle : NoCircle structs depth st turns
  undisturbed : Undisturbed structs depth st turns

/-- **The parameters stand for the slots of their arguments**, under all their paths. -/
def StandForSlots (frame : SymbolTable) (calls : List (ParameterInfo × StackElement)) : Prop :=
  ∀ call ∈ calls, ∀ path ∈ parameterPaths structs depth call.1.type,
    frame.resolveBindSymbol (call.1.name ++ path) = st.resolveBindSymbol (call.2.name ++ path)

end Condition

/-! ### The paths of the parameters -/

section Paths

variable {structs : StructDefinitions} {depth : ℕ} {st : SymbolTable} {turn : Turn} {turns : List Turn}
  {path : String} {entry : Alias String}

theorem mem_aliases :
    entry ∈ aliases structs depth st turns ↔ ∃ turn ∈ turns, entry ∈ turn.aliases structs depth st := by
  induction turns with
  | nil => simp [aliases]
  | cons turn later ih =>
      rw [aliases, List.mem_append, ih]
      simp only [List.mem_cons, exists_eq_or_imp]
      exact or_comm

theorem Turn.mem_aliases :
    entry ∈ turn.aliases structs depth st ↔
      ¬ ((parseFixedArrayType turn.parameter.type).isSome ∧ turn.parameter.name = turn.argRootName) ∧
        ∃ path ∈ parameterPaths structs depth turn.parameter.type,
          entry = { name := turn.parameter.name ++ path
                    target := turn.argRootName ++ path
                    slot := st.resolveBindSymbol (turn.argument.name ++ path) } := by
  unfold Turn.aliases
  split_ifs with hself
  · exact iff_of_false List.not_mem_nil fun h => h.1 hself
  · rw [List.mem_map]
    constructor
    · rintro ⟨path, hpath, rfl⟩
      exact ⟨hself, path, hpath, rfl⟩
    · rintro ⟨-, path, hpath, rfl⟩
      exact ⟨path, hpath, rfl⟩

theorem alias_mem (hturn : turn ∈ turns)
    (hbound : ¬ ((parseFixedArrayType turn.parameter.type).isSome ∧
      turn.parameter.name = turn.argRootName))
    (hpath : path ∈ parameterPaths structs depth turn.parameter.type) :
    { name := turn.parameter.name ++ path
      target := turn.argRootName ++ path
      slot := st.resolveBindSymbol (turn.argument.name ++ path) } ∈ aliases structs depth st turns :=
  mem_aliases.mpr ⟨turn, hturn, Turn.mem_aliases.mpr ⟨hbound, path, hpath, rfl⟩⟩

theorem aliasBindings_aliases (turn : Turn) : aliasBindings (turn.aliases structs depth st) =
    parameterBindings structs depth turn.parameter turn.argRootName := by
  unfold Turn.aliases parameterBindings
  split_ifs
  · rfl
  · rw [aliasBindings, List.map_map]
    rfl

theorem eq_of_path {turn' : Turn} {path' : String}
    (hnodup : (turns.map (·.parameter.name)).Nodup) (hplain : ∀ turn ∈ turns, IsPlain turn.parameter.name)
    (hturn : turn ∈ turns) (hturn' : turn' ∈ turns)
    (hpath : path ∈ parameterPaths structs depth turn.parameter.type)
    (hpath' : path' ∈ parameterPaths structs depth turn'.parameter.type)
    (h : turn.parameter.name ++ path = turn'.parameter.name ++ path') : turn = turn' ∧ path = path' := by
  obtain ⟨hname, hsame⟩ := append_path_inj (hplain turn hturn) (hplain turn' hturn')
    (isPath_parameterPaths hpath) (isPath_parameterPaths hpath') h
  exact ⟨List.inj_on_of_nodup_map hnodup hturn hturn' hname, hsame⟩

theorem alias_unique (hnodup : (turns.map (·.parameter.name)).Nodup)
    (hplain : ∀ turn ∈ turns, IsPlain turn.parameter.name) :
    ∀ a ∈ aliases structs depth st turns, ∀ b ∈ aliases structs depth st turns,
      a.name = b.name → a = b := by
  intro a ha b hb hname
  obtain ⟨turn, hturn, ha⟩ := mem_aliases.mp ha
  obtain ⟨turn', hturn', hb⟩ := mem_aliases.mp hb
  obtain ⟨-, path, hpath, rfl⟩ := Turn.mem_aliases.mp ha
  obtain ⟨-, path', hpath', rfl⟩ := Turn.mem_aliases.mp hb
  obtain ⟨rfl, rfl⟩ := eq_of_path hnodup hplain hturn hturn' hpath hpath' hname
  rfl

theorem notMem_aliasNames (hnodup : (turns.map (·.parameter.name)).Nodup)
    (hplain : ∀ turn ∈ turns, IsPlain turn.parameter.name) (hturn : turn ∈ turns)
    (hself : (parseFixedArrayType turn.parameter.type).isSome ∧ turn.parameter.name = turn.argRootName)
    (hpath : path ∈ parameterPaths structs depth turn.parameter.type) :
    turn.parameter.name ++ path ∉ aliasNames (aliases structs depth st turns) := by
  intro hname
  obtain ⟨entry, hentry, hname⟩ := List.mem_map.mp hname
  obtain ⟨turn', hturn', hentry⟩ := mem_aliases.mp hentry
  obtain ⟨hbound, path', hpath', rfl⟩ := Turn.mem_aliases.mp hentry
  obtain ⟨rfl, -⟩ := eq_of_path hnodup hplain hturn' hturn hpath' hpath hname
  exact hbound hself

/-- Such an array owns all its paths. -/
theorem ownedBy_roots (hturn : turn ∈ turns) (harray : (parseFixedArrayType turn.parameter.type).isSome)
    (hpath : path ∈ parameterPaths structs depth turn.parameter.type) :
    OwnedBy (roots structs depth turns) (turn.parameter.name ++ path) := by
  induction turns with
  | nil => exact absurd hturn List.not_mem_nil
  | cons first later ih =>
      rw [roots, ownedBy_append]
      rcases List.mem_cons.mp hturn with rfl | hturn
      · right
        obtain ⟨arrayType, hsome⟩ := Option.isSome_iff_exists.mp harray
        rw [parameterRoots, hsome]
        exact ⟨turn.parameter.name, List.mem_cons_self,
          belongsTo_append (isPath_parameterPaths hpath)⟩
      · exact Or.inl (ih hturn)

theorem mem_turns {calls : List (ParameterInfo × StackElement)}
    (hturn : turn ∈ PrivateCall.turns structs depth st calls) : (turn.parameter, turn.argument) ∈ calls := by
  induction calls with
  | nil => exact absurd hturn List.not_mem_nil
  | cons call later ih =>
      rcases List.mem_cons.mp hturn with rfl | hturn
      · exact List.mem_cons_self
      · exact List.mem_cons_of_mem _ (ih hturn)

theorem map_turns (calls : List (ParameterInfo × StackElement)) :
    (PrivateCall.turns structs depth st calls).map (fun turn => (turn.parameter, turn.argument)) =
      calls := by
  induction calls with
  | nil => rfl
  | cons call later ih => rw [PrivateCall.turns, List.map_cons, ih]

end Paths

/-! ### The frame -/

section Frame

variable {structs : StructDefinitions} {depth : ℕ} {st frame : SymbolTable} {turns : List Turn}
  {name last : String} {steps : ℕ}

theorem enterCall_opened (st : SymbolTable) : (enterCall st).Opened :=
  ⟨Nat.le_refl _, fun _ h => absurd h List.not_mem_nil⟩

theorem enterCall_owned (st : SymbolTable) (name : String) :
    (enterCall st).isOwnedByActiveScope name = false := by
  rw [← Bool.not_eq_true, (enterCall_opened st).isOwned_iff]
  change ¬ OwnedBy ((st.currentScope.drop st.currentScope.length).map Prod.fst) name
  rw [List.drop_length]
  exact ownedBy_nil

/-- The frame of a call with some parameters bound. -/
def IsFrame (structs : StructDefinitions) (depth : ℕ) (st : SymbolTable) (turns : List Turn)
    (frame : SymbolTable) : Prop :=
  Widens (enterCall st) frame (roots structs depth turns) (aliasBindings (aliases structs depth st turns))

namespace IsFrame

theorem bindSymbol (h : IsFrame structs depth st turns frame) :
    frame.bindSymbol = frameBindings structs depth st turns :=
  (show Widens (enterCall st) frame _ _ from h).bindSymbol

theorem activeNames (h : IsFrame structs depth st turns frame) :
    frame.activeNames = aliasNames (aliases structs depth st turns) := by
  have hstart : frame.activeBindSymbolStart = st.bindSymbol.length := Widens.bindStart h
  rw [SymbolTable.activeNames, bindStart, hstart, h.bindSymbol, frameBindings, List.length_append,
    min_eq_left (Nat.le_add_right _ _), List.drop_left, fst_aliasBindings]

theorem isOwned_iff (h : IsFrame structs depth st turns frame) :
    frame.isOwnedByActiveScope name = true ↔ OwnedBy (roots structs depth turns) name := by
  rw [Widens.owned h, enterCall_owned]
  exact or_iff_right Bool.false_ne_true

theorem resolve_of_owned (h : IsFrame structs depth st turns frame)
    (howned : Owned structs depth st turns name) : frame.resolveBindSymbol name = name := by
  refine resolveBindSymbol_of_owned (h.isOwned_iff.mpr howned.1) ?_
  rw [h.activeNames]
  exact howned.2

theorem resolve_of_ends (h : IsFrame structs depth st turns frame)
    (howned : ¬ Owned structs depth st turns name)
    (hends : Ends (frameBindings structs depth st turns) steps name last) :
    frame.resolveBindSymbol name = last := by
  rw [← h.bindSymbol] at hends
  refine resolveBindSymbol_of_ends ?_ hends
  rw [h.activeNames, ← Bool.not_eq_true, h.isOwned_iff]
  by_cases hmem : name ∈ aliasNames (aliases structs depth st turns)
  · exact Or.inr hmem
  · exact Or.inl fun hroots => howned ⟨hroots, hmem⟩

end IsFrame

/-- The frame that the loop makes, when every argument is looked up as in the caller. -/
theorem bindParameters_widens {calls : List (ParameterInfo × StackElement)}
    (hlooksUp : LooksUp structs depth st (PrivateCall.turns structs depth st calls))
    (h : bindParameters structs depth (enterCall st) calls = .ok frame) :
    IsFrame structs depth st (PrivateCall.turns structs depth st calls) frame := by
  induction calls generalizing frame with
  | nil =>
      obtain rfl := Except.ok.inj h
      exact .refl (enterCall_opened st)
  | cons call later ih =>
      obtain ⟨parameter, argument⟩ := call
      obtain ⟨hargument, hnamed, hlater⟩ := hlooksUp
      obtain ⟨between, hbefore, hturn⟩ := bind_eq_ok_iff.mp h
      have hframe := ih hlater hbefore
      have hroot : between.resolveBindSymbol argument.name =
          if Owned structs depth st (PrivateCall.turns structs depth st later) argument.name then
            argument.name
          else st.resolveBindSymbol argument.name := by
        split_ifs with howned
        · exact hframe.resolve_of_owned howned
        · obtain ⟨_, hends⟩ := hargument howned
          exact hframe.resolve_of_ends howned hends
      have hwidens := bindParameter_widens (Widens.opened hframe) (fun harray => by
        rw [hroot]
        exact Widens.named hframe _ (hnamed harray)) hturn
      rw [hroot] at hwidens
      have hall := Widens.trans hframe hwidens
      rw [IsFrame, PrivateCall.turns, roots, aliases, aliasBindings, List.map_append, ← aliasBindings,
        ← aliasBindings, aliasBindings_aliases]
      exact hall

/-- **Once the arguments are looked up, and no circle is closed, the parameters stand for their slots
exactly if they are undisturbed.** -/
theorem standForSlots_iff {calls : List (ParameterInfo × StackElement)}
    (hnodup : (calls.map (·.1.name)).Nodup) (hplain : ∀ call ∈ calls, IsPlain call.1.name)
    (hlooksUp : LooksUp structs depth st (PrivateCall.turns structs depth st calls))
    (hcircle : NoCircle structs depth st (PrivateCall.turns structs depth st calls))
    (h : bindParameters structs depth (enterCall st) calls = .ok frame) :
    StandForSlots structs depth st frame calls ↔
      Undisturbed structs depth st (PrivateCall.turns structs depth st calls) := by
  have hframe := bindParameters_widens hlooksUp h
  set turns := PrivateCall.turns structs depth st calls with hturns
  have hcalls : turns.map (fun turn => (turn.parameter, turn.argument)) = calls := map_turns calls
  have hnodup' : (turns.map (·.parameter.name)).Nodup := by
    rw [← hcalls, List.map_map] at hnodup
    exact hnodup
  have hplain' : ∀ turn ∈ turns, IsPlain turn.parameter.name :=
    fun turn hturn => hplain _ (mem_turns hturn)
  have hunique : ∀ a ∈ aliases structs depth st turns, ∀ b ∈ aliases structs depth st turns,
      a.name = b.name → a = b := alias_unique hnodup' hplain'
  have hfaithful := ends_slot_iff hunique hcircle
  -- a path that is bound is resolved to the end of its chain, and any other to itself
  have hbound : ∀ entry ∈ aliases structs depth st turns,
      (frame.resolveBindSymbol entry.name = entry.slot ↔
        ∃ steps, Ends (frameBindings structs depth st turns) steps entry.name entry.slot) := by
    intro entry hentry
    obtain ⟨steps, last, hends⟩ := hcircle entry hentry
    have howned : ¬ Owned structs depth st turns entry.name :=
      fun howned => howned.2 (List.mem_map_of_mem hentry)
    rw [hframe.resolve_of_ends howned hends]
    constructor
    · rintro rfl
      exact ⟨steps, hends⟩
    · rintro ⟨_, hslot⟩
      exact (hends.unique hslot).2
  have hself : ∀ turn ∈ turns, ∀ path ∈ parameterPaths structs depth turn.parameter.type,
      ((parseFixedArrayType turn.parameter.type).isSome ∧ turn.parameter.name = turn.argRootName) →
        frame.resolveBindSymbol (turn.parameter.name ++ path) = turn.parameter.name ++ path :=
    fun turn hturn path hpath hself => hframe.resolve_of_owned
      ⟨ownedBy_roots hturn hself.1 hpath, notMem_aliasNames hnodup' hplain' hturn hself hpath⟩
  constructor
  · intro hstand
    have hentries : ∀ entry ∈ aliases structs depth st turns, entry.Faithful st.bindSymbol
        (aliases structs depth st turns) := by
      refine hfaithful.mp fun entry hentry => (hbound entry hentry).mp ?_
      obtain ⟨turn, hturn, hentry⟩ := mem_aliases.mp hentry
      obtain ⟨-, path, hpath, rfl⟩ := Turn.mem_aliases.mp hentry
      exact hstand _ (mem_turns hturn) path hpath
    intro turn hturn path hpath
    by_cases harray : (parseFixedArrayType turn.parameter.type).isSome ∧
        turn.parameter.name = turn.argRootName
    · rw [if_pos harray.2.symm, ← hself turn hturn path hpath harray]
      exact (hstand _ (mem_turns hturn) path hpath).symm
    · have hthis := hentries _ (alias_mem hturn harray hpath)
      simpa only [Alias.Faithful, String.append_left_inj] using hthis
  · intro hundisturbed
    have hentries : ∀ entry ∈ aliases structs depth st turns, entry.Faithful st.bindSymbol
        (aliases structs depth st turns) := by
      intro entry hentry
      obtain ⟨turn, hturn, hentry⟩ := mem_aliases.mp hentry
      obtain ⟨-, path, hpath, rfl⟩ := Turn.mem_aliases.mp hentry
      simpa only [Alias.Faithful, String.append_left_inj] using hundisturbed turn hturn path hpath
    intro call hcall path hpath
    rw [← hcalls] at hcall
    obtain ⟨turn, hturn, rfl⟩ := List.mem_map.mp hcall
    by_cases harray : (parseFixedArrayType turn.parameter.type).isSome ∧
        turn.parameter.name = turn.argRootName
    · have hslot := hundisturbed turn hturn path hpath
      rw [if_pos harray.2.symm] at hslot
      rw [hslot]
      exact hself turn hturn path hpath harray
    · exact (hbound _ (alias_mem hturn harray hpath)).mpr
        (hfaithful.mpr hentries _ (alias_mem hturn harray hpath))

end Frame

/-! ### Parameters of basic types -/

/-- The loop for parameters of basic types, each with the name of its argument. -/
def bindNames (st : SymbolTable) : List (String × String) → SymbolTable
  | [] => st
  | (parameter, argument) :: later =>
      (bindNames st later).addBindSymbol (parameter, (bindNames st later).resolveBindSymbol argument)

def nameBindings (st : SymbolTable) (pairs : List (String × String)) : List (String × String) :=
  (bindNames (enterCall st) pairs).bindSymbol

/-- Every argument is looked up to its slot. -/
def NamesLookUp (st : SymbolTable) : List (String × String) → Prop
  | [] => True
  | (_, argument) :: later =>
      (∃ steps, Ends (nameBindings st later) steps argument (st.resolveBindSymbol argument)) ∧
        NamesLookUp st later

section Names

variable {st : SymbolTable} {pairs : List (String × String)} {name : String}

theorem nameBindings_cons (st : SymbolTable) (parameter argument : String)
    (later : List (String × String)) :
    nameBindings st ((parameter, argument) :: later) = nameBindings st later ++
      [(parameter, (bindNames (enterCall st) later).resolveBindSymbol argument)] := rfl

theorem bindNames_owned (st : SymbolTable) (pairs : List (String × String)) (name : String) :
    (bindNames (enterCall st) pairs).isOwnedByActiveScope name = false := by
  induction pairs with
  | nil => exact enterCall_owned st name
  | cons pair later ih => exact ih

theorem resolve_bindNames {steps : ℕ} {last : String}
    (h : Ends (nameBindings st pairs) steps name last) :
    (bindNames (enterCall st) pairs).resolveBindSymbol name = last :=
  resolveBindSymbol_of_ends (Or.inl (bindNames_owned st pairs name)) h

theorem next_nameBindings (h : name ∉ pairs.map Prod.fst) :
    next (nameBindings st pairs) name = next st.bindSymbol name := by
  induction pairs with
  | nil => rfl
  | cons pair later ih =>
      obtain ⟨parameter, argument⟩ := pair
      rw [List.map_cons, List.mem_cons, not_or] at h
      rw [nameBindings_cons, ← ih h.2]
      exact next_congr (by rw [latest_concat, if_neg h.1])

/-- Every argument that was resolved is, and so is every parameter: the loop closes no circle. -/
theorem ends_nameBindings (hresolves : ∀ q ∈ pairs, ∃ steps slot, Ends st.bindSymbol steps q.2 slot)
    (h : name ∈ pairs.map Prod.fst ∨ ∃ steps slot, Ends st.bindSymbol steps name slot) :
    ∃ steps last, Ends (nameBindings st pairs) steps name last := by
  induction pairs generalizing name with
  | nil =>
      rcases h with h | h
      · exact absurd h (by simp)
      · exact h
  | cons pair later ih =>
      obtain ⟨parameter, argument⟩ := pair
      have hlater : ∀ q ∈ later, ∃ steps slot, Ends st.bindSymbol steps q.2 slot := fun q hq =>
        hresolves q (List.mem_cons_of_mem _ hq)
      obtain ⟨_, last, hargument⟩ := ih hlater
        (Or.inr (hresolves (parameter, argument) List.mem_cons_self))
      rw [nameBindings_cons, resolve_bindNames hargument]
      by_cases hname : name = parameter
      · subst hname
        have hterminal : Terminal (nameBindings st later ++ [(name, last)]) last := by
          rw [terminal_concat_iff]
          split_ifs
          · rfl
          · exact hargument.terminal
        have hlatest : latest (nameBindings st later ++ [(name, last)]) name = some last := by
          rw [latest_concat, if_pos rfl]
        obtain ⟨steps, hends⟩ := ends_of_latest hlatest hterminal
        exact ⟨steps, last, hends⟩
      · rw [List.map_cons, List.mem_cons, or_assoc] at h
        obtain ⟨_, _, hends⟩ := ih hlater (h.resolve_left hname)
        exact hends.concat hargument.terminal parameter

/-- A name that stands for another one does so to the end of the loop. -/
theorem not_terminal_nameBindings {front : List (String × String)}
    (hresolves : ∀ q ∈ front ++ pairs, ∃ steps slot, Ends st.bindSymbol steps q.2 slot)
    (h : ¬ Terminal (nameBindings st pairs) name) :
    ¬ Terminal (nameBindings st (front ++ pairs)) name := by
  induction front with
  | nil => exact h
  | cons pair front ih =>
      obtain ⟨parameter, argument⟩ := pair
      have hlater : ∀ q ∈ front ++ pairs, ∃ steps slot, Ends st.bindSymbol steps q.2 slot :=
        fun q hq => hresolves q (List.mem_cons_of_mem _ hq)
      obtain ⟨_, last, hargument⟩ := ends_nameBindings hlater
        (Or.inr (hresolves (parameter, argument) List.mem_cons_self))
      rw [List.cons_append, nameBindings_cons, resolve_bindNames hargument]
      exact not_terminal_concat (ih hlater) hargument.terminal parameter

theorem latest_nameBindings {front : List (String × String)} (h : name ∉ front.map Prod.fst) :
    latest (nameBindings st (front ++ pairs)) name = latest (nameBindings st pairs) name := by
  induction front with
  | nil => rfl
  | cons pair front ih =>
      obtain ⟨parameter, argument⟩ := pair
      rw [List.map_cons, List.mem_cons, not_or] at h
      rw [List.cons_append, nameBindings_cons, latest_concat, if_neg h.1]
      exact ih h.2

/-- A parameter is bound to what its argument is looked up to. -/
theorem NamesLookUp.latest (h : NamesLookUp st pairs) (hnodup : (pairs.map Prod.fst).Nodup)
    {pair : String × String} (hpair : pair ∈ pairs) :
    AliasChain.latest (nameBindings st pairs) pair.1 = some (st.resolveBindSymbol pair.2) := by
  induction pairs with
  | nil => exact absurd hpair List.not_mem_nil
  | cons first later ih =>
      obtain ⟨parameter, argument⟩ := first
      obtain ⟨⟨_, hends⟩, hlater⟩ := h
      rw [List.map_cons, List.nodup_cons] at hnodup
      rw [nameBindings_cons, resolve_bindNames hends, latest_concat]
      rcases List.mem_cons.mp hpair with rfl | hmem
      · rw [if_pos rfl]
      · rw [if_neg, ih hlater hnodup.2 hmem]
        intro hname
        exact hnodup.1 (List.mem_map.mpr ⟨pair, hmem, hname⟩)

/-- Where every parameter ends up at the slot of its argument, every argument was looked up: the slots are
resolved to the end of the loop, and so they were at every turn. -/
theorem namesLookUp_of_ends {front : List (String × String)}
    (hnodup : ((front ++ pairs).map Prod.fst).Nodup)
    (hresolves : ∀ q ∈ front ++ pairs, ∃ steps slot, Ends st.bindSymbol steps q.2 slot)
    (h : ∀ q ∈ pairs, ∃ steps,
      Ends (nameBindings st (front ++ pairs)) steps q.1 (st.resolveBindSymbol q.2)) :
    NamesLookUp st pairs := by
  induction pairs generalizing front with
  | nil => exact trivial
  | cons pair later ih =>
      obtain ⟨parameter, argument⟩ := pair
      have hsplit : front ++ (parameter, argument) :: later =
          (front ++ [(parameter, argument)]) ++ later := by simp
      have hlater : NamesLookUp st later := by
        refine ih (by rw [← hsplit]; exact hnodup) (by rw [← hsplit]; exact hresolves) ?_
        rw [← hsplit]
        exact fun q hq => h q (List.mem_cons_of_mem _ hq)
      -- a slot is bound to nothing else at the end, and so at no turn before
      have hterminal : ∀ q ∈ (parameter, argument) :: later,
          Terminal (nameBindings st (front ++ (parameter, argument) :: later))
            (st.resolveBindSymbol q.2) := by
        intro q hq
        obtain ⟨_, hends⟩ := h q hq
        exact hends.terminal
      have hbefore : ∀ q ∈ (parameter, argument) :: later,
          Terminal (nameBindings st later) (st.resolveBindSymbol q.2) := by
        intro q hq
        by_contra hnot
        have hstays := not_terminal_nameBindings (by rw [← hsplit]; exact hresolves) hnot
        rw [← hsplit] at hstays
        exact hstays (hterminal q hq)
      have hslot : Terminal st.bindSymbol (st.resolveBindSymbol argument) := by
        by_contra hnot
        have hlooked : ∀ q ∈ later ++ [], ∃ steps slot, Ends st.bindSymbol steps q.2 slot := by
          rw [List.append_nil]
          exact fun q hq => hresolves q (List.mem_append_right _ (List.mem_cons_of_mem _ hq))
        have hstays := not_terminal_nameBindings hlooked hnot
        rw [List.append_nil] at hstays
        exact hstays (hbefore (parameter, argument) List.mem_cons_self)
      obtain ⟨_, _, hargument⟩ := hresolves (parameter, argument)
        (List.mem_append_right _ List.mem_cons_self)
      obtain ⟨_, hown⟩ := ends_resolveBindSymbol hargument hslot
      refine ⟨?_, hlater⟩
      have hsame : ∀ x, x ∉ later.map Prod.fst →
          next (nameBindings st later) x = next st.bindSymbol x := fun x hx => next_nameBindings hx
      rcases ends_redirect hsame hown with ⟨key, hkey, hreaches⟩ | hends
      -- the argument is looked up through a parameter, whose slot must then be its own
      · obtain ⟨other, hother, rfl⟩ := List.mem_map.mp hkey
        rw [List.map_append, List.map_cons, List.nodup_append, List.nodup_cons] at hnodup
        obtain ⟨_, hthrough⟩ := ends_of_latest (hlater.latest hnodup.2.1.2 hother)
          (hbefore other (List.mem_cons_of_mem _ hother))
        obtain ⟨steps, hends⟩ := hreaches.ends (fun x hx => next_nameBindings hx) hthrough
        have hfront : parameter ∉ front.map Prod.fst := fun hmem =>
          hnodup.2.2 parameter hmem parameter List.mem_cons_self rfl
        have hlatest : AliasChain.latest (nameBindings st (front ++ (parameter, argument) :: later))
            parameter = some (st.resolveBindSymbol other.2) := by
          rw [latest_nameBindings hfront, nameBindings_cons, latest_concat, if_pos rfl,
            resolve_bindNames hends]
        obtain ⟨_, hfinal⟩ := ends_of_latest hlatest
          (hterminal other (List.mem_cons_of_mem _ hother))
        obtain ⟨_, hparameter⟩ := h (parameter, argument) List.mem_cons_self
        rw [(hfinal.unique hparameter).2] at hends
        exact ⟨steps, hends⟩
      · exact hends

end Names

section Basic

variable {structs : StructDefinitions} {depth : ℕ} {st frame : SymbolTable}
  {calls : List (ParameterInfo × StackElement)}

/-- The names of the parameters and of their arguments. -/
def namePairs (calls : List (ParameterInfo × StackElement)) : List (String × String) :=
  calls.map fun call => (call.1.name, call.2.name)

theorem bindParameter_basic {parameter : ParameterInfo} (h : IsBasic structs parameter.type)
    (st : SymbolTable) (argument : StackElement) : bindParameter structs depth st parameter argument =
      .ok (st.addBindSymbol (parameter.name, st.resolveBindSymbol argument.name)) := by
  rw [bindParameter, h.1]
  exact if_neg h.2

theorem parameterPaths_basic {type : String} (h : IsBasic structs type) :
    parameterPaths structs depth type = [""] := by
  rw [parameterPaths, h.1]
  exact if_neg h.2

theorem parameterRoots_basic {parameter : ParameterInfo} (h : IsBasic structs parameter.type)
    (argRootName : String) : parameterRoots structs depth parameter argRootName = [] := by
  rw [parameterRoots, h.1]
  exact if_neg h.2

theorem bindParameters_basic (hbasic : ∀ call ∈ calls, IsBasic structs call.1.type) (st : SymbolTable) :
    bindParameters structs depth st calls = .ok (bindNames st (namePairs calls)) := by
  induction calls with
  | nil => rfl
  | cons call later ih =>
      rw [List.forall_mem_cons] at hbasic
      rw [bindParameters, ih hbasic.2]
      exact bindParameter_basic hbasic.1 _ _

theorem not_owned_basic (hbasic : ∀ call ∈ calls, IsBasic structs call.1.type) (name : String) :
    ¬ Owned structs depth st (turns structs depth st calls) name := by
  have hroots : roots structs depth (turns structs depth st calls) = [] := by
    induction calls with
    | nil => rfl
    | cons call later ih =>
        rw [List.forall_mem_cons] at hbasic
        rw [turns, roots, ih hbasic.2, parameterRoots_basic hbasic.1]
        rfl
  rintro ⟨howned, -⟩
  rw [hroots] at howned
  exact ownedBy_nil howned

/-- The bindings of the parameters to their slots are the ones that the loop makes. -/
theorem frameBindings_basic (hbasic : ∀ call ∈ calls, IsBasic structs call.1.type)
    (h : NamesLookUp st (namePairs calls)) :
    frameBindings structs depth st (turns structs depth st calls) = nameBindings st (namePairs calls) := by
  induction calls with
  | nil => exact List.append_nil _
  | cons call later ih =>
      obtain ⟨⟨_, hends⟩, hlater⟩ := h
      rw [List.forall_mem_cons] at hbasic
      rw [← namePairs] at hends hlater
      rw [namePairs, List.map_cons, nameBindings_cons, ← namePairs, resolve_bindNames hends,
        ← ih hbasic.2 hlater, turns, frameBindings, aliases, aliasBindings, List.map_append,
        ← aliasBindings, ← aliasBindings, aliasBindings_aliases, ← List.append_assoc, ← frameBindings,
        parameterBindings, hbasic.1.1, if_neg (not_owned_basic hbasic.2 _)]
      simp [parameterPaths_basic hbasic.1]

theorem looksUp_basic (hbasic : ∀ call ∈ calls, IsBasic structs call.1.type)
    (h : NamesLookUp st (namePairs calls)) :
    LooksUp structs depth st (turns structs depth st calls) := by
  induction calls with
  | nil => exact trivial
  | cons call later ih =>
      obtain ⟨hends, hlater⟩ := h
      rw [List.forall_mem_cons] at hbasic
      refine ⟨fun _ => ?_, fun harray => ?_, ih hbasic.2 hlater⟩
      · rw [frameBindings_basic hbasic.2 hlater]
        exact hends
      · rw [hbasic.1.1] at harray
        exact nomatch harray

/-- **Parameters of basic types stand for the slots of their arguments only where these are looked up.** -/
theorem looksUp_of_standForSlots (hbasic : ∀ call ∈ calls, IsBasic structs call.1.type)
    (hnodup : (calls.map (·.1.name)).Nodup)
    (hresolves : ∀ call ∈ calls, ∃ steps slot, Ends st.bindSymbol steps call.2.name slot)
    (h : bindParameters structs depth (enterCall st) calls = .ok frame)
    (hstand : StandForSlots structs depth st frame calls) :
    LooksUp structs depth st (turns structs depth st calls) ∧
      NoCircle structs depth st (turns structs depth st calls) := by
  rw [bindParameters_basic hbasic] at h
  obtain rfl := Except.ok.inj h
  have hnames : (([] ++ namePairs calls).map Prod.fst).Nodup := by
    rw [List.nil_append, namePairs, List.map_map]
    exact hnodup
  have hchains : ∀ q ∈ namePairs calls, ∃ steps slot, Ends st.bindSymbol steps q.2 slot := by
    intro q hq
    obtain ⟨call, hcall, rfl⟩ := List.mem_map.mp hq
    exact hresolves call hcall
  have hends : ∀ q ∈ namePairs calls, ∃ steps,
      Ends (nameBindings st ([] ++ namePairs calls)) steps q.1 (st.resolveBindSymbol q.2) := by
    intro q hq
    obtain ⟨steps, last, hends⟩ := ends_nameBindings hchains (Or.inl (List.mem_map_of_mem hq))
    obtain ⟨call, hcall, rfl⟩ := List.mem_map.mp hq
    have hslot := hstand call hcall "" (by simp [parameterPaths_basic (hbasic call hcall)])
    rw [String.append_empty, String.append_empty, resolve_bindNames hends] at hslot
    exact ⟨steps, hslot ▸ hends⟩
  have hlook := namesLookUp_of_ends hnames hchains hends
  refine ⟨looksUp_basic hbasic hlook, ?_⟩
  intro entry hentry
  obtain ⟨turn, hturn, hentry⟩ := mem_aliases.mp hentry
  obtain ⟨-, path, hpath, rfl⟩ := Turn.mem_aliases.mp hentry
  have hcall := mem_turns hturn
  rw [parameterPaths_basic (hbasic _ hcall), List.mem_singleton] at hpath
  rw [frameBindings_basic hbasic hlook, hpath]
  dsimp only
  rw [String.append_empty]
  exact ends_nameBindings hchains (Or.inl (List.mem_map.mpr ⟨_, List.mem_map_of_mem hcall, rfl⟩))

end Basic

/-! ### The call -/

/-- **The parameters stand for the slots of their arguments where nothing is captured.**  They do only
there when the arguments are looked up and no circle is closed, or when all types are basic. -/
theorem privateFunctionResolution_iff (structs : StructDefinitions) (depth : ℕ) (st frame : SymbolTable)
    (function : String) (parameters : List ParameterInfo) (existingArgs : List StackElement)
    (hnodup : (parameters.map (·.name)).Nodup) (hplain : ∀ parameter ∈ parameters, IsPlain parameter.name)
    (hcall : privateFunctionResolution structs depth st function parameters existingArgs = .ok frame) :
    (CaptureFree structs depth st (turns structs depth st (parameters.zip existingArgs)) →
      StandForSlots structs depth st frame (parameters.zip existingArgs)) ∧
    ((LooksUp structs depth st (turns structs depth st (parameters.zip existingArgs)) ∧
        NoCircle structs depth st (turns structs depth st (parameters.zip existingArgs)) ∨
      (∀ parameter ∈ parameters, IsBasic structs parameter.type) ∧
        ∀ argument ∈ existingArgs, ∃ steps slot, Ends st.bindSymbol steps argument.name slot) →
      StandForSlots structs depth st frame (parameters.zip existingArgs) →
        CaptureFree structs depth st (turns structs depth st (parameters.zip existingArgs))) := by
  rw [privateFunctionResolution] at hcall
  split_ifs at hcall with hlength
  rw [ne_eq, not_not] at hlength
  have hnames : ((parameters.zip existingArgs).map (·.1.name)).Nodup := by
    have hfst : (parameters.zip existingArgs).map Prod.fst = parameters :=
      List.map_fst_zip (by omega)
    rw [← hfst, List.map_map] at hnodup
    exact hnodup
  have hplains : ∀ call ∈ parameters.zip existingArgs, IsPlain call.1.name :=
    fun call hmem => hplain _ (List.of_mem_zip hmem).1
  constructor
  · intro hfree
    exact (standForSlots_iff hnames hplains hfree.looksUp hfree.noCircle hcall).mpr hfree.undisturbed
  · intro hexact hstand
    have hframe : LooksUp structs depth st (turns structs depth st (parameters.zip existingArgs)) ∧
        NoCircle structs depth st (turns structs depth st (parameters.zip existingArgs)) := by
      rcases hexact with hexact | ⟨hbasic, hresolves⟩
      · exact hexact
      · exact looksUp_of_standForSlots (fun call hmem => hbasic _ (List.of_mem_zip hmem).1) hnames
          (fun call hmem => hresolves _ (List.of_mem_zip hmem).2) hcall hstand
    exact ⟨hframe.1, hframe.2,
      (standForSlots_iff hnames hplains hframe.1 hframe.2 hcall).mp hstand⟩

def oneField : StructDefinitions := [("S", [("x", { baseType := "int" })])]

/-- A caller with the number `y` and the structure `t`. -/
def mixedSlots : SymbolTable := { main := [{ name := "t.x" }, { name := "y" }], alt := [] }

/-- The arguments of the call `f(y, t)` of a function `def f(int a, S b)`. -/
def mixedCalls : List (ParameterInfo × StackElement) :=
  [(⟨"a", "int"⟩, { name := "y" }), (⟨"b", "S"⟩, { name := "t" })]

/-- Nothing is captured in that call: the caller has no bindings that a chain could follow. -/
theorem captureFree_mixedCalls :
    CaptureFree oneField 1 mixedSlots (turns oneField 1 mixedSlots mixedCalls) := by
  have hturns : turns oneField 1 mixedSlots mixedCalls =
      [⟨⟨"a", "int"⟩, { name := "y" }, "y"⟩, ⟨⟨"b", "S"⟩, { name := "t" }, "t"⟩] := by decide
  have haliases : aliases oneField 1 mixedSlots (turns oneField 1 mixedSlots mixedCalls) =
      [⟨"b.x", "t.x", "t.x"⟩, ⟨"a", "y", "y"⟩] := by decide
  have hleads : ∀ name, (∀ other ∈ aliases oneField 1 mixedSlots (turns oneField 1 mixedSlots mixedCalls),
      other.name ≠ name) → LeadsTo mixedSlots.bindSymbol
        (aliases oneField 1 mixedSlots (turns oneField 1 mixedSlots mixedCalls)) name name := by
    intro name hname
    refine ⟨fun other hother hreaches => ?_, fun _ => ⟨0, .stop rfl⟩⟩
    cases hreaches with
    | here => exact absurd rfl (hname other hother)
    | step _ hnext _ => exact nomatch hnext
  refine ⟨?_, ?_, ?_⟩
  · rw [hturns]
    exact ⟨fun _ => ⟨0, .stop rfl⟩, fun h => absurd h (by decide), fun _ => ⟨0, .stop rfl⟩,
      fun h => absurd h (by decide), trivial⟩
  · intro entry hentry
    rw [haliases] at hentry
    rcases List.mem_pair.mp hentry with rfl | rfl
    · exact ⟨1, "t.x", .step rfl (.stop rfl)⟩
    · exact ⟨1, "y", .step rfl (.stop rfl)⟩
  · intro turn hturn path hpath
    rw [hturns] at hturn
    rcases List.mem_pair.mp hturn with rfl | rfl
    · obtain rfl : path = "" := List.mem_singleton.mp hpath
      exact hleads "y" (by rw [haliases]; decide)
    · obtain rfl : path = ".x" := List.mem_singleton.mp hpath
      exact hleads "t.x" (by rw [haliases]; decide)

/-- The parameters of that call stand for their slots. -/
theorem privateFunctionResolution_iff_mixed :
    StandForSlots oneField 1 mixedSlots { mixedSlots with bindSymbol := [("b.x", "t.x"), ("a", "y")] }
      mixedCalls :=
  (privateFunctionResolution_iff oneField 1 mixedSlots _ "f" [⟨"a", "int"⟩, ⟨"b", "S"⟩]
    [{ name := "y" }, { name := "t" }] (by decide) (by simp [IsPlain]) (by decide)).1
    captureFree_mixedCalls

/-- A caller with the slots `a` and `b`. -/
def twoSlots : SymbolTable := { main := [{ name := "b" }, { name := "a" }], alt := [] }

/-- The call `f(b, a)` of a function `def f(int a, int b)`.  The parameter `b` is bound to the slot `a`
first, and the argument `b` is then resolved through it: both parameters stand for the slot `a`. -/
theorem both_parameters_of_swapped_call :
    ∃ frame, privateFunctionResolution [] 0 twoSlots "f" [⟨"a", "int"⟩, ⟨"b", "int"⟩]
        [{ name := "b" }, { name := "a" }] = .ok frame ∧
      twoSlots.resolveBindSymbol "a" = "a" ∧ twoSlots.resolveBindSymbol "b" = "b" ∧
      frame.resolveBindSymbol "a" = "a" ∧ frame.resolveBindSymbol "b" = "a" :=
  ⟨_, rfl, by decide, by decide, by decide, by decide⟩

/-- In the call `f(b.x, t)` of `def f(int a, S b)` the path `b.x` of the caller is taken for that of the
parameter. -/
example : (privateFunctionResolution oneField 1 mixedSlots "f" [⟨"a", "int"⟩, ⟨"b", "S"⟩]
    [{ name := "b.x" }, { name := "t" }]).map (·.resolveBindSymbol "a") = .ok "t.x" := by decide

/-- Structures that are passed the wrong way round, `f(b, a, c)` of `def f(S a, S b, int c)`, are bound to
each other in a circle, and it is the odd number of bindings that lets the loop stop at the right one. -/
example : (privateFunctionResolution oneField 1 twoSlots "f" [⟨"a", "S"⟩, ⟨"b", "S"⟩, ⟨"c", "int"⟩]
    [{ name := "b" }, { name := "a" }, { name := "c" }]).map (fun frame =>
      (frame.resolveBindSymbol "a.x", frame.resolveBindSymbol "b.x")) = .ok ("b.x", "a.x") := by decide

end PrivateCall

end AtomicProof
