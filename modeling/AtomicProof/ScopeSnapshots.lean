/-
Snapshots of a scope.

A snapshot of a scope holds a copy of the current table, which counts its stacks anew, and the elements
and the counter of the alt stack, which all copies share.  It is put back by pushing the copy once more
and by replacing what the alt stack holds by then.  Both need room, so that it matters what the counters
say: those of the alt stacks and of the fixed values are right after every operation, whereas the
counter of the main stack can be wrong and is put back as it was.

Main definitions:

* `ScopeTable.recounted` — a table as a copy has it;
* `ScopeTable.Kept`, `ScopeState.Kept`, `Session.Kept` — the invariant of the counters;
* `Session.StaysAbove` — a run that leaves no enclosing scope.

Main results:

* `Session.Kept.next` — **every operation keeps the invariant**, whether or not it throws;
* `Session.enclosing_run` — a run that leaves no enclosing scope leaves their tables alone;
* `restoreControlFlowState_exact` — **snapshots restore exactly**.
-/

import AtomicProof.ScopeState

set_option autoImplicit false

namespace AtomicProof

/-! ### Copies of tables -/

namespace ScopeTable

variable {t t' other : ScopeTable}

/-- A table as a copy has it: the main stack is counted anew. -/
def recounted (t : ScopeTable) : ScopeTable := { t with main := t.main.recounted }

/-- What holds of every table: the fixed values are counted, and so are the alt stacks that are saved. -/
structure Kept (t : ScopeTable) : Prop where
  fixed : t.fixed.Accounted
  saved : t.savedAltStackCombinedStackSize =
    t.savedSharedAltStackElements.map fun elements => (combinedStackSize elements : ℤ)
  fits : ∀ elements ∈ t.savedSharedAltStackElements, combinedStackSize elements ≤ maxStackSize

def Fits (t : ScopeTable) : Prop := combinedStackSize t.main.content ≤ maxStackSize

theorem Kept.empty (altStackPtr : ℕ) : Kept { altStackPtr := altStackPtr } :=
  ⟨.empty, rfl, nofun⟩

theorem Kept.recounted (h : t.Kept) : t.recounted.Kept := ⟨h.fixed, h.saved, h.fits⟩

theorem Shares.kept (h : t.Shares t') (hkept : t.Kept) : t'.Kept := by
  obtain ⟨hfixed, hsaved, hfits⟩ := hkept
  refine ⟨?_, ?_, ?_⟩
  · rw [h.fixed]
    exact hfixed
  · rw [h.altSizes, h.elements, hsaved]
  · rw [h.elements]
    exact hfits

/-- **A table can be copied exactly where its main stack fits.** -/
theorem Kept.copy_eq_ok_iff (h : t.Kept) : t.copy = .ok t' ↔ t.Fits ∧ t' = t.recounted := by
  have hfixed : t.fixed.copy = (none, t.fixed) := by
    rw [RootStack.copy_eq_ok_iff, h.fixed.recounted]
    exact ⟨h.fixed.le_max, rfl⟩
  unfold copy
  rcases hmain : t.main.copy with ⟨error, main⟩
  cases error with
  | some error =>
      refine iff_of_false nofun fun ⟨hfits, _⟩ => ?_
      have hok := RootStack.copy_eq_ok_iff.2 ⟨hfits, rfl⟩
      rw [hmain] at hok
      cases hok
  | none =>
      obtain ⟨hfits, rfl⟩ := RootStack.copy_eq_ok_iff.1 hmain
      rw [hfixed]
      simp only [Except.ok.injEq]
      constructor
      · rintro rfl
        exact ⟨hfits, rfl⟩
      · rintro ⟨-, rfl⟩
        rfl

theorem Kept.assign_eq (h : other.Kept) (hfits : other.Fits) (t : ScopeTable) :
    t.assign other = (none, other.recounted) := by
  have hmain : other.main.copy = (none, other.main.recounted) :=
    RootStack.copy_eq_ok_iff.2 ⟨hfits, rfl⟩
  have hfixed : other.fixed.copy = (none, other.fixed) := by
    rw [RootStack.copy_eq_ok_iff, h.fixed.recounted]
    exact ⟨h.fixed.le_max, rfl⟩
  unfold assign
  rw [hmain, hfixed]
  rfl

@[simp] theorem recounted_recounted (t : ScopeTable) : t.recounted.recounted = t.recounted := rfl

end ScopeTable

/-! ### The invariant -/

/-- What holds of every snapshot: the alt stack is counted, and the table can be put back. -/
structure ControlFlowStateSnapshot.Kept (snapshot : ControlFlowStateSnapshot) : Prop where
  table : snapshot.symbolTable.Kept
  fits : snapshot.symbolTable.Fits
  altSize : snapshot.altCombinedSize = combinedStackSize snapshot.altStack
  altFits : combinedStackSize snapshot.altStack ≤ maxStackSize

structure ScopeState.Kept (s : ScopeState) : Prop where
  altStacks : ∀ place, (s.altStacks place).Accounted
  current : s.currentSymtab.Kept
  enclosing : ∀ t ∈ s.symtabScopes, t.Kept ∧ t.Fits

/-- **The invariant of the counters.** -/
structure Session.Kept (s : Session) : Prop where
  scope : s.scope.Kept
  snapshots : ∀ snapshot ∈ s.snapshots, snapshot.Kept

namespace ScopeState

variable {s : ScopeState}
variable {snapshot : ControlFlowStateSnapshot}

theorem Kept.fresh : Kept .fresh := ⟨fun _ => .empty, .empty 0, nofun⟩

theorem Kept.altStack (h : s.Kept) : s.altStack.Accounted := h.altStacks _

theorem Kept.setTable (h : s.Kept) {t : ScopeTable} (ht : t.Kept) : (s.setTable t).Kept :=
  ⟨h.altStacks, ht, h.enclosing⟩

theorem Kept.setAltStack (h : s.Kept) {alt : RootStack} (halt : alt.Accounted) :
    (s.setAltStack alt).Kept := by
  refine ⟨fun place => ?_, h.current, h.enclosing⟩
  by_cases hplace : place = s.currentSymtab.altStackPtr
  · subst hplace
    simpa [ScopeState.setAltStack] using halt
  · simpa [ScopeState.setAltStack, Function.update_of_ne hplace] using h.altStacks place

theorem Kept.setMain (h : s.Kept) (main : RootStack) :
    (s.setTable { s.currentSymtab with main := main }).Kept :=
  h.setTable ⟨h.current.fixed, h.current.saved, h.current.fits⟩

theorem Kept.settle (h : s.Kept) {main alt : RootStack} (halt : alt.Accounted) :
    (s.settle main alt).Kept := (h.setMain main).setAltStack halt

theorem Kept.onTable (h : s.Kept) {f : ScopeTable → Thrown ScopeTable}
    (hf : s.currentSymtab.Shares (f s.currentSymtab).2) : (s.onTable f).2.Kept :=
  h.setTable (hf.kept h.current)

theorem Kept.onAltStack (h : s.Kept) {f : RootStack → Thrown RootStack}
    (hf : (f s.altStack).2.Accounted) : (s.onAltStack f).2.Kept :=
  h.setAltStack hf

/-! ### The operations keep the invariant -/

theorem andThen_kept {σ : Type} {p : σ → Prop} {result : Thrown σ} {next : σ → Thrown σ}
    (h : p result.2) (hnext : ∀ state, p state → p (next state).2) : p (result.andThen next).2 := by
  obtain ⟨error, state⟩ := result
  cases error with
  | none => exact hnext state h
  | some error => exact h

theorem Kept.withFixed (h : s.Kept) {fixed : RootStack} (hfixed : fixed.Accounted) :
    (s.setTable { s.currentSymtab with fixed := fixed }).Kept :=
  h.setTable ⟨hfixed, h.current.saved, h.current.fits⟩

theorem Kept.setFixed (h : s.Kept) (element : StackElement) :
    (s.onTable (·.setFixed element)).2.Kept := by
  refine h.withFixed (andThen_kept ?_ fun fixed hfixed => hfixed.push element)
  split
  · exact h.current.fixed.erase _
  · exact h.current.fixed

theorem Kept.removeFixed (h : s.Kept) (name : String) :
    (s.onTable (·.removeFixed name)).2.Kept := by
  show (s.setTable (s.currentSymtab.removeFixed name).2).Kept
  unfold ScopeTable.removeFixed
  split
  · exact h.withFixed (h.current.fixed.erase _)
  · exact h

theorem Kept.setAltUntil (h : s.Kept) (symbolName : String) : (s.setAltUntil symbolName).2.2.Kept :=
  h.settle h.altStack.transfer_target

theorem Kept.setAlt (h : s.Kept) (symbolName : String) (moveOnlyMatch : Bool) :
    (s.setAlt symbolName moveOnlyMatch).2.2.Kept := by
  unfold ScopeState.setAlt
  split_ifs
  · split
    · exact h
    · rename_i num _
      have hroll : s.currentSymtab.Shares (s.currentSymtab.roll num).2 :=
        TableOp.apply_shares s.currentSymtab (.roll num)
      split
      · rename_i error t hrolled
        rw [hrolled] at hroll
        exact h.setTable (hroll.kept h.current)
      · rename_i t hrolled
        rw [hrolled] at hroll
        have hpop : t.Shares t.pop.2 := TableOp.apply_shares t .pop
        split
        · rename_i t' hpopped
          rw [hpopped] at hpop
          exact h.setTable (hpop.kept (hroll.kept h.current))
        · rename_i top t' hpopped
          rw [hpopped] at hpop
          have ht' : (s.setTable t').Kept := h.setTable (hpop.kept (hroll.kept h.current))
          exact ht'.setAltStack (ht'.altStack.push top)
  · exact h.setAltUntil symbolName

theorem Kept.moveTopToAlt (h : s.Kept) : s.moveTopToAlt.2.Kept := by
  unfold ScopeState.moveTopToAlt
  dsimp only
  split
  · exact h
  · rename_i top rest _
    have hpush := h.altStack.push top
    split
    · exact h.setMain _
    · rename_i alt hpushed
      rw [hpushed] at hpush
      exact h.settle hpush

theorem Kept.saveSharedAltStack (h : s.Kept) : s.saveSharedAltStack.Kept := by
  refine h.setTable ⟨h.current.fixed, ?_, ?_⟩
  · rw [List.map_cons, ← h.current.saved, ← h.altStack.size_eq]
  · exact List.forall_mem_cons.2 ⟨h.altStack.le_max, h.current.fits⟩

theorem Kept.restoreSharedAltStack (h : s.Kept) : s.restoreSharedAltStack.2.Kept := by
  have hsaved := h.current.saved
  have hfits := h.current.fits
  unfold ScopeState.restoreSharedAltStack
  dsimp only
  split
  · rename_i elements savedElements altSize savedAltSizes mainSize savedSizes helements haltSizes _
    rw [helements, haltSizes, List.map_cons, List.cons.injEq] at hsaved
    rw [helements] at hfits
    obtain ⟨hfirst, hrest⟩ := List.forall_mem_cons.1 hfits
    rw [h.altStack.replaceStackContent hfirst]
    have halt : (RootStack.setCombinedStackSize ⟨elements, combinedStackSize elements⟩
        altSize).Accounted := ⟨hsaved.1, hfirst⟩
    exact (h.setAltStack halt).setTable ⟨h.current.fixed, hsaved.2, hrest⟩
  · exact h

/-- Names take no memory. -/
theorem combinedStackSize_renameByPrefix (oldPrefix newPrefix : String) (st : RootStack) :
    combinedStackSize (st.renameByPrefix oldPrefix newPrefix).content =
      combinedStackSize st.content := by
  have hloop : ∀ (content : List StackElement) (seen : List String), combinedStackSize
      (alterFirsts StackElement.name (startsWith oldPrefix) (fun slot =>
        some { slot with name := exchange oldPrefix newPrefix slot.name }) seen content) =
      combinedStackSize content := by
    intro content
    induction content with
    | nil => exact fun _ => rfl
    | cons slot rest ih =>
        intro seen
        rw [alterFirsts]
        split_ifs
        · rw [Option.toList_some, List.singleton_append, combinedStackSize_cons,
            combinedStackSize_cons, ih]
          rfl
        · rw [combinedStackSize_cons, combinedStackSize_cons, ih]
  exact hloop st.content []

theorem accounted_renameByPrefix {st : RootStack} (h : st.Accounted) (oldPrefix newPrefix : String) :
    (st.renameByPrefix oldPrefix newPrefix).Accounted := by
  refine ⟨?_, ?_⟩
  · rw [combinedStackSize_renameByPrefix]
    exact h.size_eq
  · rw [combinedStackSize_renameByPrefix]
    exact h.le_max

theorem Kept.renameEntriesByPrefix (h : s.Kept) (oldPrefix newPrefix : String) :
    (s.renameEntriesByPrefix oldPrefix newPrefix).Kept := by
  unfold ScopeState.renameEntriesByPrefix
  split_ifs
  · exact h
  · exact (h.setAltStack (accounted_renameByPrefix h.altStack _ _)).setTable
      ⟨accounted_renameByPrefix h.current.fixed _ _, h.current.saved, h.current.fits⟩

theorem Kept.clean (h : s.Kept) : s.clean.2.Kept :=
  ⟨h.altStacks, .empty _, nofun⟩

theorem Kept.enterScope (h : s.Kept) : s.enterScope.2.Kept := by
  unfold ScopeState.enterScope
  split
  · exact h
  · rename_i saved hcopy
    obtain ⟨hfits, rfl⟩ := h.current.copy_eq_ok_iff.1 hcopy
    refine ⟨h.altStacks, ⟨h.current.fixed, h.current.saved, h.current.fits⟩, ?_⟩
    exact List.forall_mem_cons.2 ⟨⟨h.current.recounted, hfits⟩, h.enclosing⟩

theorem Kept.fits_of_exitScope (h : s.Kept) {left : ScopeTable} {s' : ScopeState}
    (hexit : s.exitScope = (.ok left, s')) : s.currentSymtab.Fits := by
  unfold ScopeState.exitScope at hexit
  split at hexit
  · cases hexit
  · rename_i table hcopy
    exact (h.current.copy_eq_ok_iff.1 hcopy).1

theorem Kept.exitScope_cons (h : s.Kept) (hfits : s.currentSymtab.Fits) {willIt : ScopeTable}
    {rest : List ScopeTable} (hscopes : s.symtabScopes = willIt :: rest) :
    s.exitScope = (.ok s.currentSymtab.recounted,
      { s.setTable willIt.recounted with symtabScopes := rest }) := by
  have hcopy : s.currentSymtab.copy = .ok s.currentSymtab.recounted :=
    h.current.copy_eq_ok_iff.2 ⟨hfits, rfl⟩
  obtain ⟨hkept, hfits'⟩ := h.enclosing willIt (by rw [hscopes]; exact List.mem_cons_self)
  have hcopy' : willIt.copy = .ok willIt.recounted := hkept.copy_eq_ok_iff.2 ⟨hfits', rfl⟩
  unfold ScopeState.exitScope
  rw [hcopy, hscopes]
  simp only [hcopy', hkept.recounted.assign_eq hfits', ScopeTable.recounted_recounted]

/-- Without an enclosing scope there is a new table with an alt stack of its own. -/
theorem Kept.exitScope_nil (h : s.Kept) (hfits : s.currentSymtab.Fits)
    (hscopes : s.symtabScopes = []) :
    s.exitScope = (.ok s.currentSymtab.recounted,
      { s.setTable { altStackPtr := s.altStackCount } with
        altStacks := Function.update s.altStacks s.altStackCount {}
        altStackCount := s.altStackCount + 1 }) := by
  have hcopy : s.currentSymtab.copy = .ok s.currentSymtab.recounted :=
    h.current.copy_eq_ok_iff.2 ⟨hfits, rfl⟩
  have hempty : ScopeTable.Fits { altStackPtr := s.altStackCount } := Nat.zero_le _
  unfold ScopeState.exitScope
  rw [hcopy, hscopes]
  simp only [(ScopeTable.Kept.empty s.altStackCount).assign_eq hempty]
  rfl

/-- What an attempt to leave a scope leaves behind: the table that is left is a copy. -/
theorem Kept.exitScope (h : s.Kept) :
    s.exitScope.2.Kept ∧ ∀ left, s.exitScope.1 = .ok left → left.Kept ∧ left.Fits := by
  by_cases hfits : s.currentSymtab.Fits
  · have hleft : s.currentSymtab.recounted.Kept ∧ s.currentSymtab.recounted.Fits :=
      ⟨h.current.recounted, hfits⟩
    cases hscopes : s.symtabScopes with
    | nil =>
        rw [h.exitScope_nil hfits hscopes]
        refine ⟨⟨fun place => ?_, .empty _, ?_⟩, fun left hok => ?_⟩
        · by_cases hplace : place = s.altStackCount
          · subst hplace
            simpa using RootStack.Accounted.empty
          · simpa [Function.update_of_ne hplace] using h.altStacks place
        · simp [ScopeState.setTable, hscopes]
        · obtain rfl := Except.ok.inj hok
          exact hleft
    | cons willIt rest =>
        have henclosing := h.enclosing
        rw [hscopes] at henclosing
        obtain ⟨⟨hkept, -⟩, hrest⟩ := List.forall_mem_cons.1 henclosing
        rw [h.exitScope_cons hfits hscopes]
        refine ⟨⟨h.altStacks, hkept.recounted, hrest⟩, fun left hok => ?_⟩
        obtain rfl := Except.ok.inj hok
        exact hleft
  · have herror : ∃ error, s.exitScope = (.error error, s) := by
      unfold ScopeState.exitScope
      split
      · exact ⟨_, rfl⟩
      · rename_i table hcopy
        exact absurd (h.current.copy_eq_ok_iff.1 hcopy).1 hfits
    obtain ⟨error, herror⟩ := herror
    rw [herror]
    exact ⟨h, nofun⟩

/-! ### Snapshots -/

/-- What a snapshot holds. -/
theorem Kept.captureControlFlowState_eq_ok_iff (h : s.Kept) :
    s.captureControlFlowState = .ok snapshot ↔
      s.currentSymtab.Fits ∧
        snapshot = ⟨s.currentSymtab.recounted, s.altStack.content,
          s.currentSymtab.main.combinedStackSize, s.altStack.combinedStackSize, s.depth⟩ := by
  unfold ScopeState.captureControlFlowState
  cases hcopy : s.currentSymtab.copy with
  | error error =>
      refine iff_of_false nofun fun ⟨hfits, _⟩ => ?_
      rw [h.current.copy_eq_ok_iff.2 ⟨hfits, rfl⟩] at hcopy
      cases hcopy
  | ok table =>
      obtain ⟨hfits, rfl⟩ := h.current.copy_eq_ok_iff.1 hcopy
      simp only [Except.ok.injEq]
      constructor
      · rintro rfl
        exact ⟨hfits, rfl⟩
      · rintro ⟨-, rfl⟩
        rfl

theorem Kept.captureControlFlowState (h : s.Kept)
    (hok : s.captureControlFlowState = .ok snapshot) : snapshot.Kept := by
  obtain ⟨hfits, rfl⟩ := h.captureControlFlowState_eq_ok_iff.1 hok
  exact ⟨h.current.recounted, hfits, h.altStack.size_eq, h.altStack.le_max⟩

/-- **A snapshot is put back wherever the depth is right.** -/
theorem Kept.restoreControlFlowState_eq (h : s.Kept)
    (hsnapshot : snapshot.Kept) (hdepth : s.depth = snapshot.lexicalDepth) :
    s.restoreControlFlowState snapshot =
      (none, (s.setTable { snapshot.symbolTable with
        main := ⟨snapshot.symbolTable.main.content, snapshot.mainCombinedSize⟩ }).setAltStack
          ⟨snapshot.altStack, snapshot.altCombinedSize⟩) := by
  have halt : ∀ place, (s.altStacks place).Accounted := h.altStacks
  unfold ScopeState.restoreControlFlowState
  rw [if_neg (not_not.2 hdepth)]
  have hreplace := (halt snapshot.symbolTable.altStackPtr).replaceStackContent hsnapshot.altFits
  simp only [ScopeState.onTable, hsnapshot.table.assign_eq hsnapshot.fits, Thrown.andThen,
    ScopeState.onAltStack, ScopeState.altStack, ScopeState.setTable, ScopeTable.recounted,
    RootStack.setCombinedStackSize, hreplace, ScopeState.setAltStack]
  simp [RootStack.recounted]

theorem Kept.restoreControlFlowState (h : s.Kept)
    (hsnapshot : snapshot.Kept) : (s.restoreControlFlowState snapshot).2.Kept := by
  by_cases hdepth : s.depth = snapshot.lexicalDepth
  · rw [h.restoreControlFlowState_eq hsnapshot hdepth]
    have halt : RootStack.Accounted ⟨snapshot.altStack, snapshot.altCombinedSize⟩ :=
      ⟨hsnapshot.altSize, hsnapshot.altFits⟩
    refine ScopeState.Kept.setAltStack (h.setTable ?_) halt
    exact ⟨hsnapshot.table.fixed, hsnapshot.table.saved, hsnapshot.table.fits⟩
  · unfold ScopeState.restoreControlFlowState
    rw [if_pos hdepth]
    exact h

theorem Kept.captureControlFlowStateAndExitScope (h : s.Kept) :
    s.captureControlFlowStateAndExitScope.2.Kept ∧
      ∀ snapshot, s.captureControlFlowStateAndExitScope.1 = .ok snapshot → snapshot.Kept := by
  unfold ScopeState.captureControlFlowStateAndExitScope
  cases hcapture : s.captureControlFlowState with
  | error error => exact ⟨h, nofun⟩
  | ok snapshot =>
      have hsnapshot := h.captureControlFlowState hcapture
      obtain ⟨hscope, hleft⟩ := h.exitScope
      rcases hexit : s.exitScope with ⟨left, s'⟩
      rw [hexit] at hscope hleft
      cases left with
      | error error => exact ⟨hscope, nofun⟩
      | ok left =>
          obtain ⟨hkept, hfits⟩ := hleft left rfl
          simp only [hkept.assign_eq hfits]
          refine ⟨hscope, fun snapshot' hok => ?_⟩
          obtain rfl := Except.ok.inj hok
          exact ⟨hkept.recounted, hfits, hsnapshot.altSize, hsnapshot.altFits⟩

end ScopeState

/-! ### Sessions -/

namespace Session

variable {s : Session}

theorem Kept.fresh : Kept .fresh := ⟨.fresh, nofun⟩

theorem Kept.onScope (h : s.Kept) {result : Thrown ScopeState} (hresult : result.2.Kept) :
    (s.onScope result).2.Kept := ⟨hresult, h.snapshots⟩

theorem Kept.withSnapshot (h : s.Kept) {index : ℕ}
    {f : ControlFlowStateSnapshot → Thrown ScopeState}
    (hf : ∀ snapshot, snapshot.Kept → (f snapshot).2.Kept) : (s.withSnapshot index f).2.Kept := by
  unfold Session.withSnapshot
  split
  · rename_i snapshot hsnapshot
    exact h.onScope (hf snapshot (h.snapshots snapshot (List.mem_of_getElem? hsnapshot)))
  · exact h

theorem Kept.keep (h : s.Kept) {result : Except String ControlFlowStateSnapshot × ScopeState}
    (hscope : result.2.Kept) (hsnapshot : ∀ snapshot, result.1 = .ok snapshot → snapshot.Kept) :
    (s.keep result).2.Kept := by
  obtain ⟨captured, scope⟩ := result
  cases captured with
  | error error => exact ⟨hscope, h.snapshots⟩
  | ok snapshot => exact ⟨hscope, List.forall_mem_cons.2 ⟨hsnapshot snapshot rfl, h.snapshots⟩⟩

/-- **Every operation keeps the invariant**, whether or not it throws. -/
theorem Kept.next (h : s.Kept) (op : ScopeOp) : (s.next op).Kept := by
  have hscope := h.scope
  cases op with
  | table op => exact h.onScope (hscope.onTable (TableOp.apply_shares _ op))
  | setFixed element => exact h.onScope (hscope.setFixed element)
  | removeFixed name => exact h.onScope (hscope.removeFixed name)
  | setAlt symbolName moveOnlyMatch => exact h.onScope (hscope.setAlt symbolName moveOnlyMatch)
  | setAltCount moveElementNum => exact h.onScope (hscope.settle hscope.altStack.transfer_target)
  | setMain symbolName => exact h.onScope (hscope.settle hscope.altStack.transfer_source)
  | setMainCount moveElementNum => exact h.onScope (hscope.settle hscope.altStack.transfer_source)
  | pushAlt element => exact h.onScope (hscope.setAltStack (hscope.altStack.push element))
  | popAlt => exact h.onScope (hscope.setAltStack hscope.altStack.pop)
  | eraseAlt index => exact h.onScope (hscope.setAltStack (hscope.altStack.erase index))
  | moveTopToAlt => exact h.onScope hscope.moveTopToAlt
  | clearSharedAltStack =>
      refine h.onScope (hscope.onAltStack ?_)
      rw [hscope.altStack.replaceStackContent (Nat.zero_le _)]
      exact .empty
  | saveSharedAltStack => exact h.onScope hscope.saveSharedAltStack
  | restoreSharedAltStack => exact h.onScope hscope.restoreSharedAltStack
  | renameEntriesByPrefix oldPrefix newPrefix =>
      exact h.onScope (hscope.renameEntriesByPrefix oldPrefix newPrefix)
  | clean => exact h.onScope hscope.clean
  | enterScope => exact h.onScope hscope.enterScope
  | exitScope =>
      have hexit := hscope.exitScope.1
      simp only [Session.next, Session.step]
      split
      · rename_i error scope heq
        rw [heq] at hexit
        exact h.onScope hexit
      · rename_i left scope heq
        rw [heq] at hexit
        exact h.onScope hexit
  | popScopeStack =>
      refine h.onScope ⟨hscope.altStacks, hscope.current, fun t ht => ?_⟩
      exact hscope.enclosing t (List.mem_of_mem_tail ht)
  | captureControlFlowState =>
      exact h.keep hscope fun snapshot hok => hscope.captureControlFlowState hok
  | captureControlFlowStateAndExitScope =>
      exact h.keep hscope.captureControlFlowStateAndExitScope.1
        hscope.captureControlFlowStateAndExitScope.2
  | restoreControlFlowState index =>
      exact h.withSnapshot fun snapshot hsnapshot => hscope.restoreControlFlowState hsnapshot
  | replaceCurrentSymtab index =>
      refine h.withSnapshot fun snapshot hsnapshot => ?_
      show (s.scope.setTable (s.scope.currentSymtab.assign snapshot.symbolTable).2).Kept
      rw [hsnapshot.table.assign_eq hsnapshot.fits]
      exact hscope.setTable hsnapshot.table.recounted

theorem Kept.run (h : s.Kept) (ops : List ScopeOp) : (s.run ops).Kept := by
  induction ops generalizing s with
  | nil => exact h
  | cons op ops ih => exact ih (h.next op)

/-! ### Enclosing scopes -/

/-- The tables of the scopes that enclose one of a depth. -/
def enclosing (depth : ℕ) (s : Session) : List ScopeTable :=
  s.scope.symtabScopes.drop (s.scope.depth - depth)

/-- A run that never leaves a scope of a depth. -/
def StaysAbove (depth : ℕ) : Session → List ScopeOp → Prop :=
  AlongRun Session.next fun s op => depth ≤ (s.next op).scope.depth

theorem symtabScopes_setAlt (s : ScopeState) (symbolName : String) (moveOnlyMatch : Bool) :
    (s.setAlt symbolName moveOnlyMatch).2.2.symtabScopes = s.symtabScopes := by
  unfold ScopeState.setAlt
  split_ifs
  · split
    · rfl
    · split
      · rfl
      · split <;> rfl
  · rfl

theorem symtabScopes_exitScope (s : ScopeState) :
    s.exitScope.2.symtabScopes = s.symtabScopes ∨
      s.exitScope.2.symtabScopes = s.symtabScopes.tail := by
  unfold ScopeState.exitScope
  split
  · exact .inl rfl
  · split
    · rename_i willIt rest hscopes
      split
      · exact .inl rfl
      · split
        · exact .inl rfl
        · rw [hscopes]
          exact .inr rfl
    · split <;> exact .inl rfl

theorem symtabScopes_captureControlFlowStateAndExitScope (s : ScopeState) :
    s.captureControlFlowStateAndExitScope.2.symtabScopes = s.symtabScopes ∨
      s.captureControlFlowStateAndExitScope.2.symtabScopes = s.symtabScopes.tail := by
  have hexit := symtabScopes_exitScope s
  unfold ScopeState.captureControlFlowStateAndExitScope
  split
  · exact .inl rfl
  · split
    · rename_i error s' heq
      rwa [heq] at hexit
    · rename_i left s' heq
      rw [heq] at hexit
      split <;> exact hexit

theorem symtabScopes_restoreControlFlowState (s : ScopeState) (snapshot : ControlFlowStateSnapshot) :
    (s.restoreControlFlowState snapshot).2.symtabScopes = s.symtabScopes := by
  unfold ScopeState.restoreControlFlowState
  split_ifs
  · rfl
  · have hkeep : ∀ {result : Thrown ScopeState} {next : ScopeState → Thrown ScopeState},
        result.2.symtabScopes = s.symtabScopes →
          (∀ s', s'.symtabScopes = s.symtabScopes → (next s').2.symtabScopes = s.symtabScopes) →
            (result.andThen next).2.symtabScopes = s.symtabScopes :=
      @ScopeState.andThen_kept ScopeState fun s' => s'.symtabScopes = s.symtabScopes
    exact hkeep rfl fun s' hs' => hkeep hs' fun _ h => h

/-- What an operation does to the tables of the enclosing scopes. -/
theorem next_symtabScopes (s : Session) (op : ScopeOp) :
    (s.next op).scope.symtabScopes = s.scope.symtabScopes ∨
      (∃ t, (s.next op).scope.symtabScopes = t :: s.scope.symtabScopes) ∨
      (s.next op).scope.symtabScopes = s.scope.symtabScopes.tail ∨
      (s.next op).scope.symtabScopes = [] := by
  -- entering pushes a table, leaving and popping take one, cleaning takes them all
  cases op with
  | setAlt symbolName moveOnlyMatch => exact .inl (symtabScopes_setAlt s.scope _ _)
  | moveTopToAlt =>
      left
      simp only [Session.next, Session.step, Session.onScope, ScopeState.moveTopToAlt]
      split
      · rfl
      · split <;> rfl
  | restoreSharedAltStack =>
      left
      simp only [Session.next, Session.step, Session.onScope, ScopeState.restoreSharedAltStack]
      split
      · split <;> rfl
      · rfl
  | renameEntriesByPrefix oldPrefix newPrefix =>
      left
      simp only [Session.next, Session.step, Session.onScope, ScopeState.renameEntriesByPrefix]
      split_ifs <;> rfl
  | clean => exact .inr (.inr (.inr rfl))
  | enterScope =>
      simp only [Session.next, Session.step, Session.onScope, ScopeState.enterScope]
      split
      · exact .inl rfl
      · exact .inr (.inl ⟨_, rfl⟩)
  | exitScope =>
      have hexit := symtabScopes_exitScope s.scope
      simp only [Session.next, Session.step, Session.onScope]
      split
      · rename_i error scope heq
        rw [heq] at hexit
        exact hexit.imp_right fun h => .inr (.inl h)
      · rename_i left scope heq
        rw [heq] at hexit
        exact hexit.imp_right fun h => .inr (.inl h)
  | popScopeStack => exact .inr (.inr (.inl rfl))
  | captureControlFlowState =>
      left
      simp only [Session.next, Session.step, Session.keep]
      split
      · rename_i heq
        exact congrArg ScopeState.symtabScopes (Prod.mk.inj heq).2.symm
      · rename_i heq
        exact congrArg ScopeState.symtabScopes (Prod.mk.inj heq).2.symm
  | captureControlFlowStateAndExitScope =>
      have hexit := symtabScopes_captureControlFlowStateAndExitScope s.scope
      simp only [Session.next, Session.step, Session.keep]
      split
      · rename_i error scope heq
        rw [heq] at hexit
        exact hexit.imp_right fun h => .inr (.inl h)
      · rename_i snapshot scope heq
        rw [heq] at hexit
        exact hexit.imp_right fun h => .inr (.inl h)
  | restoreControlFlowState index =>
      left
      simp only [Session.next, Session.step, Session.withSnapshot, Session.onScope]
      split
      · exact symtabScopes_restoreControlFlowState _ _
      · rfl
  | replaceCurrentSymtab index =>
      left
      simp only [Session.next, Session.step, Session.withSnapshot, Session.onScope]
      split <;> rfl
  | _ => exact .inl rfl

/-- Within a scope the tables of the enclosing ones are left alone. -/
theorem enclosing_next {depth : ℕ} {op : ScopeOp} (h : depth ≤ s.scope.depth)
    (hnext : depth ≤ (s.next op).scope.depth) : (s.next op).enclosing depth = s.enclosing depth := by
  unfold enclosing ScopeState.depth at *
  rcases s.next_symtabScopes op with hsame | ⟨t, hcons⟩ | htail | hnil
  · rw [hsame]
  · rw [hcons, List.length_cons, show s.scope.symtabScopes.length + 1 - depth =
      s.scope.symtabScopes.length - depth + 1 by omega, List.drop_succ_cons]
  · rw [htail] at hnext ⊢
    rcases hscopes : s.scope.symtabScopes with _ | ⟨t, rest⟩
    · rfl
    · rw [hscopes, List.tail_cons] at hnext
      rw [List.tail_cons, List.length_cons, show rest.length + 1 - depth =
        rest.length - depth + 1 by omega, List.drop_succ_cons]
  · rw [hnil] at hnext ⊢
    obtain rfl : depth = 0 := by simpa using hnext
    simp

/-- **A run that leaves no enclosing scope leaves their tables alone.** -/
theorem enclosing_run {depth : ℕ} {ops : List ScopeOp} (h : depth ≤ s.scope.depth)
    (habove : s.StaysAbove depth ops) : (s.run ops).enclosing depth = s.enclosing depth := by
  induction ops generalizing s with
  | nil => rfl
  | cons op ops ih =>
      obtain ⟨hnext, hrest⟩ := habove
      calc (s.run (op :: ops)).enclosing depth = (s.next op).enclosing depth := ih hnext hrest
        _ = s.enclosing depth := enclosing_next h hnext

theorem symtabScopes_run {ops : List ScopeOp} (habove : s.StaysAbove s.scope.depth ops)
    (hdepth : (s.run ops).scope.depth = s.scope.depth) :
    (s.run ops).scope.symtabScopes = s.scope.symtabScopes := by
  have h := enclosing_run le_rfl habove
  simpa only [enclosing, hdepth, Nat.sub_self, List.drop_zero] using h

theorem symtabScopes_enterScope (h : s.Kept)
    (hentered : (s.next .enterScope).scope.depth = s.scope.depth + 1) :
    (s.next .enterScope).scope.symtabScopes =
      s.scope.currentSymtab.recounted :: s.scope.symtabScopes := by
  simp only [Session.next, Session.step, Session.onScope, ScopeState.enterScope] at hentered ⊢
  cases hcopy : s.scope.currentSymtab.copy with
  | error error =>
      simp only [hcopy] at hentered
      omega
  | ok saved =>
      obtain ⟨-, rfl⟩ := h.scope.current.copy_eq_ok_iff.1 hcopy
      rfl

/-! ### Exactness -/

/-- The snapshot of a state puts back the table, with its stacks and their counters, and the alt stack,
with its counter, whatever is done until the scope is at the same depth again; where no enclosing scope
was left, the tables of those are as they were, too. -/
def RestoresSnapshots (s : Session) : Prop :=
  ∀ snapshot, s.scope.captureControlFlowState = .ok snapshot → ∀ between : List ScopeOp,
    (s.run (.captureControlFlowState :: between)).scope.depth = s.scope.depth →
      ∃ restored,
        (s.run (.captureControlFlowState :: between)).scope.restoreControlFlowState snapshot =
          (none, restored) ∧
        restored.currentSymtab = s.scope.currentSymtab ∧
        restored.altStack = s.scope.altStack ∧
        (s.StaysAbove s.scope.depth (.captureControlFlowState :: between) →
          restored.symtabScopes = s.scope.symtabScopes)

/-- Leaving a scope that was entered puts back the table of the enclosing one, with its main stack counted
anew, whatever is done within. -/
def RestoresScopes (s : Session) : Prop :=
  (s.next .enterScope).scope.depth = s.scope.depth + 1 → ∀ within : List ScopeOp,
    (s.next .enterScope).StaysAbove (s.scope.depth + 1) within →
      (s.run (.enterScope :: within)).scope.depth = s.scope.depth + 1 → ∀ left scope,
        (s.run (.enterScope :: within)).scope.exitScope = (.ok left, scope) →
          scope.currentSymtab = s.scope.currentSymtab.recounted ∧
          scope.symtabScopes = s.scope.symtabScopes

theorem Kept.restoresSnapshots (h : s.Kept) : s.RestoresSnapshots := by
  intro snapshot hcapture between hdepth
  have h' := h.run (.captureControlFlowState :: between)
  have hsnapshot := h.scope.captureControlFlowState hcapture
  obtain ⟨hfits, rfl⟩ := h.scope.captureControlFlowState_eq_ok_iff.1 hcapture
  refine ⟨_, h'.scope.restoreControlFlowState_eq hsnapshot hdepth, rfl, ?_, fun habove => ?_⟩
  · simp [ScopeState.altStack, ScopeState.setAltStack, ScopeState.setTable]
  · exact symtabScopes_run habove hdepth

theorem Kept.restoresScopes (h : s.Kept) : s.RestoresScopes := by
  intro hentered within habove hdepth left scope hexit
  have h' := h.run (.enterScope :: within)
  have hscopes : (s.run (.enterScope :: within)).scope.symtabScopes =
      s.scope.currentSymtab.recounted :: s.scope.symtabScopes := by
    have hsame : ((s.next .enterScope).run within).scope.symtabScopes =
        (s.next .enterScope).scope.symtabScopes := by
      refine symtabScopes_run ?_ ?_
      · rw [hentered]
        exact habove
      · rw [hentered]
        exact hdepth
    exact hsame.trans (symtabScopes_enterScope h hentered)
  have hfits := h'.scope.fits_of_exitScope hexit
  rw [h'.scope.exitScope_cons hfits hscopes] at hexit
  obtain rfl := (Prod.mk.inj hexit).2
  exact ⟨rfl, rfl⟩

end Session

/-- **Snapshots restore exactly**, from every state that a scope can reach. -/
theorem restoreControlFlowState_exact (before : List ScopeOp) :
    (Session.fresh.run before).RestoresSnapshots ∧ (Session.fresh.run before).RestoresScopes :=
  have h := Session.Kept.fresh.run before
  ⟨h.restoresSnapshots, h.restoresScopes⟩

/-- A scope that is entered and left again, with other slots on both stacks. -/
theorem restoreControlFlowState_exact_nested :
    ∃ restored, (Session.fresh.run [.pushAlt ⟨"a", "", "01"⟩, .table (.push ⟨"b", "", "02"⟩),
        .captureControlFlowState, .enterScope, .table .pop, .popAlt,
        .table (.defineSymbol "c" "" ""), .exitScope]).scope.restoreControlFlowState
          ⟨{ altStackPtr := 0, main := ⟨[⟨"b", "", "02"⟩], 34⟩, newSymbol := ["b"] },
            [⟨"a", "", "01"⟩], 34, 34, 0⟩ = (none, restored) ∧
      restored.altStack = ⟨[⟨"a", "", "01"⟩], 34⟩ := by
  obtain ⟨restored, hrestored, -, halt, -⟩ := (restoreControlFlowState_exact
    [.pushAlt ⟨"a", "", "01"⟩, .table (.push ⟨"b", "", "02"⟩)]).1
    ⟨{ altStackPtr := 0, main := ⟨[⟨"b", "", "02"⟩], 34⟩, newSymbol := ["b"] },
      [⟨"a", "", "01"⟩], 34, 34, 0⟩ (by decide +kernel)
    [.enterScope, .table .pop, .popAlt, .table (.defineSymbol "c" "" ""), .exitScope]
    (by decide +kernel)
  refine ⟨restored, hrestored, halt.trans ?_⟩
  decide +kernel

end AtomicProof
