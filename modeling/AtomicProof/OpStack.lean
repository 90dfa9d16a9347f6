/-
The accounts of the symbolic stacks.

An `OpStack` of `src/src/util/op_stack.cpp` is a root or the child of another stack.  A root has a limit
and counts the memory of its own elements and of those of its children, of which the children know
nothing: they hand every change on to their parent.  An operation that throws leaves behind what it has
done so far.

Main definitions:

* `StackForest` — the stacks with their parents and limits;
* `OpStacks` — their contents and counters;
* `StackOp`, `StackForest.step` — the operations;
* `StackForest.AccountsExactly` — what is asked of an operation;
* `StackForest.MoveFits` — the operations that do so.

Main results:

* `StackForest.accountsExactly_iff` — an operation is exact and atomic exactly where its move fits;
* `StackForest.run_accountsExactly_iff` — **the same for all operations of a run from empty stacks**.
-/

import AtomicProof.Ledger
import AtomicProof.SlotMoves

set_option autoImplicit false

namespace AtomicProof

/-! ### Stacks -/

/-- The stacks with their parents and limits.  A child is made from its parent and so comes after it. -/
structure StackForest (n : ℕ) where
  parentStack : Fin n → Option (Fin n)
  maxStackSize : Fin n → ℕ
  parent_lt : ∀ i p, parentStack i = some p → p < i

/-- The contents, bottom first as in the vector, and the counters.  `underflowed` records that more was
taken off a counter than it held. -/
@[ext]
structure OpStacks (n : ℕ) where
  stack : Fin n → List StackElement
  combinedStackSize : Fin n → ℕ
  underflowed : Bool

namespace OpStacks

variable {n : ℕ}

def empty : OpStacks n := ⟨fun _ => [], fun _ => 0, false⟩

def setStack (st : OpStacks n) (i : Fin n) (content : List StackElement) : OpStacks n :=
  { st with stack := Function.update st.stack i content }

def setCounter (st : OpStacks n) (i : Fin n) (size : ℕ) : OpStacks n :=
  { st with combinedStackSize := Function.update st.combinedStackSize i size }

@[simp] theorem setCounter_setCounter (st : OpStacks n) (i : Fin n) (size size' : ℕ) :
    (st.setCounter i size).setCounter i size' = st.setCounter i size' := by
  simp [setCounter]

@[simp] theorem setCounter_self (st : OpStacks n) (i : Fin n) :
    st.setCounter i (st.combinedStackSize i) = st := by
  rw [setCounter, Function.update_eq_self]

end OpStacks

/-- What an operation leaves behind, with the text of what it throws. -/
abbrev OpResult (n : ℕ) := Option String × OpStacks n

/-- Going on unless something was thrown. -/
def OpResult.andThen {n : ℕ} (result : OpResult n) (next : OpStacks n → OpResult n) : OpResult n :=
  match result with
  | (none, st) => next st
  | (some error, st) => (some error, st)

/-- `static_cast<int>(size)`. -/
def toInt32 (size : ℕ) : ℤ := (size : ℤ).bmod 4294967296

namespace StackForest

variable {n : ℕ}

/-- The stack that the chain of parents ends at. -/
def rootFrom (f : StackForest n) : ℕ → Fin n → Fin n
  | 0, i => i
  | fuel + 1, i =>
      match f.parentStack i with
      | some p => f.rootFrom fuel p
      | none => i

def root (f : StackForest n) (i : Fin n) : Fin n := f.rootFrom i i

/-! ### Counting -/

/-- `getCombinedStackSize`, which goes up to the parent as long as there is one. -/
def getCombinedStackSize (f : StackForest n) (i : Fin n) (st : OpStacks n) : ℕ :=
  st.combinedStackSize (f.root i)

/-- `increaseCombinedStackSize` with `checkStackLimit`.  The sums are of memory that is in use and stay
below `2 ^ 64`. -/
def increaseCombinedStackSize (f : StackForest n) (i : Fin n) (additionalSize : ℕ)
    (st : OpStacks n) : OpResult n :=
  let size := f.getCombinedStackSize i st
  if f.maxStackSize (f.root i) < size + additionalSize then (some stackOverflow, st)
  else (none, st.setCounter (f.root i) (size + additionalSize))

/-- `decreaseCombinedStackSize`, a subtraction of `size_t`. -/
def decreaseCombinedStackSize (f : StackForest n) (i : Fin n) (additionalSize : ℕ)
    (st : OpStacks n) : OpStacks n :=
  let size := f.getCombinedStackSize i st
  if additionalSize ≤ size then st.setCounter (f.root i) (size - additionalSize)
  else { st.setCounter (f.root i) (size + 2 ^ 64 - additionalSize) with underflowed := true }

/-! ### The operations -/

def push (f : StackForest n) (i : Fin n) (element : StackElement) (st : OpStacks n) : OpResult n :=
  (f.increaseCombinedStackSize i element.getMemoryUsage st).andThen fun st =>
    (none, st.setStack i (st.stack i ++ [element]))

def pop (f : StackForest n) (i : Fin n) (st : OpStacks n) : OpResult n :=
  match (st.stack i).getLast? with
  | none => (none, st)
  | some back =>
      let st := f.decreaseCombinedStackSize i back.getMemoryUsage st
      (none, st.setStack i (st.stack i).dropLast)

def erase (f : StackForest n) (i : Fin n) (index : ℤ) (st : OpStacks n) : OpResult n :=
  if index < 0 then (some "Invalid argument - index should be >= STACK_TOP_POS.", st)
  else if toInt32 (st.stack i).length ≤ index then
    (some "Invalid argument - index out of range.", st)
  else
    let realIndex := (toInt32 (st.stack i).length - 1 - index).toNat
    match (st.stack i)[realIndex]? with
    | some element =>
        let st := f.decreaseCombinedStackSize i element.getMemoryUsage st
        (none, st.setStack i ((st.stack i).eraseIdx realIndex))
    | none => (none, st)

def insert (f : StackForest n) (i : Fin n) (position : ℤ) (element : StackElement)
    (st : OpStacks n) : OpResult n :=
  if position < 0 then (some "Invalid argument - position should be >= STACK_TOP_POS.", st)
  else if toInt32 (st.stack i).length < position then
    (some "Invalid argument - position out of range.", st)
  else
    (f.increaseCombinedStackSize i element.getMemoryUsage st).andThen fun st =>
      let realPosition := (toInt32 (st.stack i).length - position).toNat
      (none, st.setStack i ((st.stack i).insertIdx realPosition element))

/-- `std::swap` of two elements. -/
def swapElements (content : List StackElement) (i j : ℕ) : List StackElement :=
  match content[i]?, content[j]? with
  | some a, some b => (content.set i b).set j a
  | _, _ => content

def swap (i : Fin n) (index1 index2 : ℤ) (st : OpStacks n) : OpResult n :=
  let size := toInt32 (st.stack i).length
  if index1 < 0 ∨ size ≤ index1 ∨ index2 < 0 ∨ size ≤ index2 then
    (some "Invalid argument - indices out of range.", st)
  else
    (none, st.setStack i
      (swapElements (st.stack i) (size - 1 - index1).toNat (size - 1 - index2).toNat))

def replaceStackContent (f : StackForest n) (i : Fin n) (newContent : List StackElement)
    (st : OpStacks n) : OpResult n :=
  let oldContentSize := AtomicProof.combinedStackSize (st.stack i)
  let newContentSize := AtomicProof.combinedStackSize newContent
  if f.getCombinedStackSize i st < oldContentSize then
    (some ("cannot replace stack content: combined stack size is smaller " ++
      "than the current content"), st)
  else
    OpResult.andThen
      (if oldContentSize < newContentSize then
        f.increaseCombinedStackSize i (newContentSize - oldContentSize) st
      else if newContentSize < oldContentSize then
        (none, f.decreaseCombinedStackSize i (oldContentSize - newContentSize) st)
      else (none, st))
      fun st => (none, st.setStack i newContent)

/-- `OpStack::moveTopToStack`: the top of `otherStack` is moved to the stack `i`. -/
def moveTopToStack (f : StackForest n) (i otherStack : Fin n) (forceAllow : Bool)
    (st : OpStacks n) : OpResult n :=
  if forceAllow = false ∧ f.parentStack i ≠ some otherStack ∧ f.parentStack otherStack ≠ some i then
    (some "Method moveTopToStack is allowed only for relations parent-child.", st)
  else
    match (st.stack otherStack).getLast? with
    | none => (none, st)
    | some topElement =>
        let st := f.decreaseCombinedStackSize otherStack topElement.getMemoryUsage st
        (f.increaseCombinedStackSize i topElement.getMemoryUsage st).andThen fun st =>
          let st := st.setStack otherStack (st.stack otherStack).dropLast
          (none, st.setStack i (st.stack i ++ [topElement]))

def clear (f : StackForest n) (i : Fin n) (st : OpStacks n) : OpResult n :=
  let st := (st.stack i).foldl
    (fun st element => f.decreaseCombinedStackSize i element.getMemoryUsage st) st
  (none, st.setStack i [])

end StackForest

/-- The operations on the stacks of a forest. -/
inductive StackOp (n : ℕ) where
  | push (i : Fin n) (element : StackElement)
  | pop (i : Fin n)
  | erase (i : Fin n) (index : ℤ)
  | insert (i : Fin n) (position : ℤ) (element : StackElement)
  | swap (i : Fin n) (index1 index2 : ℤ)
  | replaceStackContent (i : Fin n) (newContent : List StackElement)
  | moveTopToStack (i otherStack : Fin n) (forceAllow : Bool)
  | clear (i : Fin n)
  deriving DecidableEq, Repr

namespace StackForest

variable {n : ℕ}

def step (f : StackForest n) (st : OpStacks n) : StackOp n → OpResult n
  | .push i element => f.push i element st
  | .pop i => f.pop i st
  | .erase i index => f.erase i index st
  | .insert i position element => f.insert i position element st
  | .swap i index1 index2 => swap i index1 index2 st
  | .replaceStackContent i newContent => f.replaceStackContent i newContent st
  | .moveTopToStack i otherStack forceAllow => f.moveTopToStack i otherStack forceAllow st
  | .clear i => f.clear i st

end StackForest

/-! ### Parents and roots -/

namespace StackForest

variable {n : ℕ} {f : StackForest n} {st : OpStacks n} {i j p : Fin n}

/-- More steps than there are stacks before this one lead no further. -/
theorem rootFrom_congr {fuel fuel' : ℕ} (h : i ≤ fuel) (h' : i ≤ fuel') :
    f.rootFrom fuel i = f.rootFrom fuel' i := by
  induction fuel generalizing fuel' i with
  | zero =>
      have hnone : f.parentStack i = none := by
        cases hparent : f.parentStack i with
        | none => rfl
        | some p => exact absurd (f.parent_lt i p hparent) (by omega)
      cases fuel' with
      | zero => rfl
      | succ fuel' => rw [rootFrom, rootFrom, hnone]
  | succ fuel ih =>
      cases hparent : f.parentStack i with
      | none =>
          cases fuel' with
          | zero => rw [rootFrom, rootFrom, hparent]
          | succ fuel' => rw [rootFrom, rootFrom, hparent]
      | some p =>
          have hlt := f.parent_lt i p hparent
          cases fuel' with
          | zero => omega
          | succ fuel' =>
              rw [rootFrom, rootFrom, hparent]
              exact ih (by omega) (by omega)

theorem root_of_parent (h : f.parentStack i = some p) : f.root i = f.root p := by
  have hlt := f.parent_lt i p h
  obtain ⟨k, hk⟩ : ∃ k, (i : ℕ) = k + 1 := ⟨i - 1, by omega⟩
  rw [root, root, hk, rootFrom, h]
  exact rootFrom_congr (by omega) le_rfl

theorem root_eq_of_related (h : f.parentStack i = some j ∨ f.parentStack j = some i) :
    f.root i = f.root j := by
  rcases h with h | h
  · exact root_of_parent h
  · exact (root_of_parent h).symm

/-! ### Exact accounts -/

/-- The memory of the elements of a stack. -/
def usage (st : OpStacks n) (i : Fin n) : ℕ := AtomicProof.combinedStackSize (st.stack i)

/-- Every root counts the elements of its stacks, within its limit, and nothing was ever taken off that
was not counted. -/
structure Accounted (f : StackForest n) (st : OpStacks n) : Prop where
  exact : Ledger.Exact f.root f.maxStackSize (usage st) st.combinedStackSize
  covered : st.underflowed = false

theorem accounted_empty : f.Accounted .empty := ⟨Ledger.exact_zero, rfl⟩

theorem usage_setStack (content : List StackElement) :
    usage (st.setStack i content) =
      Function.update (usage st) i (AtomicProof.combinedStackSize content) := by
  funext k
  by_cases hk : k = i
  · subst hk
    simp [usage, OpStacks.setStack]
  · simp [usage, OpStacks.setStack, Function.update_of_ne hk]

theorem Accounted.usage_le (h : f.Accounted st) (i : Fin n) :
    AtomicProof.combinedStackSize (st.stack i) ≤ f.getCombinedStackSize i st :=
  h.exact.balance_le

/-- **New content with the counter moved along is accounted**, where the limit allows it. -/
theorem Accounted.set (h : f.Accounted st) {content : List StackElement} {size : ℕ}
    (hsize : size + AtomicProof.combinedStackSize (st.stack i) =
      f.getCombinedStackSize i st + AtomicProof.combinedStackSize content)
    (hfits : size ≤ f.maxStackSize (f.root i)) :
    f.Accounted ((st.setCounter (f.root i) size).setStack i content) := by
  have hle := h.usage_le i
  refine ⟨?_, h.covered⟩
  have hset := h.exact.set (i := i) (x := AtomicProof.combinedStackSize content) (by
    unfold usage
    rw [getCombinedStackSize] at hsize hle
    omega)
  have hcounter : st.combinedStackSize (f.root i) + AtomicProof.combinedStackSize content -
      usage st i = size := by
    unfold usage
    rw [getCombinedStackSize] at hsize
    omega
  rw [hcounter] at hset
  rw [usage_setStack]
  exact hset

theorem Accounted.replace (h : f.Accounted st) {content : List StackElement}
    (hsame : AtomicProof.combinedStackSize content = AtomicProof.combinedStackSize (st.stack i)) :
    f.Accounted (st.setStack i content) := by
  have hset := h.set (i := i) (show _ = _ + AtomicProof.combinedStackSize content by rw [hsame]; rfl)
    (h.exact.le_limit (f.root i))
  have hself := OpStacks.setCounter_self st (f.root i)
  rwa [hself] at hset

theorem increase_of_fits {additionalSize : ℕ}
    (h : f.getCombinedStackSize i st + additionalSize ≤ f.maxStackSize (f.root i)) :
    f.increaseCombinedStackSize i additionalSize st =
      (none, st.setCounter (f.root i) (f.getCombinedStackSize i st + additionalSize)) := by
  rw [increaseCombinedStackSize]
  exact if_neg (by omega)

theorem increase_of_not_fits {additionalSize : ℕ}
    (h : f.maxStackSize (f.root i) < f.getCombinedStackSize i st + additionalSize) :
    f.increaseCombinedStackSize i additionalSize st = (some stackOverflow, st) := by
  rw [increaseCombinedStackSize]
  exact if_pos h

theorem decrease_of_le {additionalSize : ℕ} (h : additionalSize ≤ f.getCombinedStackSize i st) :
    f.decreaseCombinedStackSize i additionalSize st =
      st.setCounter (f.root i) (f.getCombinedStackSize i st - additionalSize) := by
  rw [decreaseCombinedStackSize]
  exact if_pos h

/-- Nothing but an exception, or a state that is accounted. -/
def Fine (f : StackForest n) (st : OpStacks n) (result : OpResult n) : Prop :=
  (∃ error, result = (some error, st)) ∨ ∃ st', result = (none, st') ∧ f.Accounted st'

end StackForest

/-! ### The operations keep the accounts -/

namespace StackForest

variable {n : ℕ} {f : StackForest n} {st : OpStacks n} {i : Fin n} {element : StackElement}

theorem fine_add (h : f.Accounted st) (place : List StackElement → List StackElement)
    (hplace : AtomicProof.combinedStackSize (place (st.stack i)) =
      AtomicProof.combinedStackSize (st.stack i) + element.getMemoryUsage) :
    f.Fine st ((f.increaseCombinedStackSize i element.getMemoryUsage st).andThen fun st =>
      (none, st.setStack i (place (st.stack i)))) := by
  by_cases hfits : f.getCombinedStackSize i st + element.getMemoryUsage ≤ f.maxStackSize (f.root i)
  · refine .inr ⟨_, by rw [increase_of_fits hfits]; rfl, ?_⟩
    refine h.set ?_ hfits
    show _ = _ + AtomicProof.combinedStackSize (place (st.stack i))
    omega
  · exact .inl ⟨_, by rw [increase_of_not_fits (by omega)]; rfl⟩

theorem fine_remove (h : f.Accounted st) {content : List StackElement}
    (hcontent : AtomicProof.combinedStackSize content + element.getMemoryUsage =
      AtomicProof.combinedStackSize (st.stack i)) :
    f.Fine st (none,
      (f.decreaseCombinedStackSize i element.getMemoryUsage st).setStack i content) := by
  have hle := h.usage_le i
  have hlimit := h.exact.le_limit (f.root i)
  rw [decrease_of_le (by omega)]
  refine .inr ⟨_, rfl, h.set (by omega) ?_⟩
  rw [getCombinedStackSize]
  omega

theorem fine_push (h : f.Accounted st) : f.Fine st (f.push i element st) :=
  fine_add h (fun content => content ++ [element]) (by simp)

theorem combinedStackSize_dropLast {content : List StackElement}
    (h : content.getLast? = some element) :
    AtomicProof.combinedStackSize content.dropLast + element.getMemoryUsage =
      AtomicProof.combinedStackSize content := by
  obtain ⟨rest, rfl⟩ := List.getLast?_eq_some_iff.1 h
  simp

theorem decrease_stack (f : StackForest n) (i : Fin n) (size : ℕ) (st : OpStacks n) :
    (f.decreaseCombinedStackSize i size st).stack = st.stack := by
  rw [decreaseCombinedStackSize]
  split_ifs <;> rfl

theorem fine_pop (h : f.Accounted st) : f.Fine st (f.pop i st) := by
  rw [pop]
  cases hlast : (st.stack i).getLast? with
  | none => exact .inr ⟨st, rfl, h⟩
  | some back =>
      simp only [decrease_stack]
      exact fine_remove h (combinedStackSize_dropLast hlast)

theorem toInt32_le (size : ℕ) : toInt32 size ≤ size := by
  unfold toInt32
  rw [Int.bmod_def]
  split <;> omega

theorem fine_erase (h : f.Accounted st) {index : ℤ} : f.Fine st (f.erase i index st) := by
  have hsize := toInt32_le (st.stack i).length
  rw [erase]
  by_cases hlow : index < 0
  · rw [if_pos hlow]
    exact .inl ⟨_, rfl⟩
  · rw [if_neg hlow]
    by_cases hhigh : toInt32 (st.stack i).length ≤ index
    · rw [if_pos hhigh]
      exact .inl ⟨_, rfl⟩
    · rw [if_neg hhigh]
      have hindex : (toInt32 (st.stack i).length - 1 - index).toNat < (st.stack i).length := by omega
      have hsum := combinedStackSize_eraseIdx hindex
      simp only [List.getElem?_eq_getElem hindex, decrease_stack]
      exact fine_remove h (by omega)

theorem fine_insert (h : f.Accounted st) {position : ℤ} :
    f.Fine st (f.insert i position element st) := by
  have hsize := toInt32_le (st.stack i).length
  rw [insert]
  by_cases hlow : position < 0
  · rw [if_pos hlow]
    exact .inl ⟨_, rfl⟩
  · rw [if_neg hlow]
    by_cases hhigh : toInt32 (st.stack i).length < position
    · rw [if_pos hhigh]
      exact .inl ⟨_, rfl⟩
    · rw [if_neg hhigh]
      refine fine_add h (fun content =>
        content.insertIdx (toInt32 content.length - position).toNat element) ?_
      have hperm := List.perm_insertIdx element (st.stack i)
        (i := (toInt32 (st.stack i).length - position).toNat) (by omega)
      rw [combinedStackSize_perm hperm, combinedStackSize_cons, Nat.add_comm]

theorem combinedStackSize_swapElements (content : List StackElement) (i j : ℕ) :
    AtomicProof.combinedStackSize (swapElements content i j) =
      AtomicProof.combinedStackSize content := by
  unfold swapElements
  by_cases hi : i < content.length
  · by_cases hj : j < content.length
    · rw [List.getElem?_eq_getElem hi, List.getElem?_eq_getElem hj]
      exact combinedStackSize_perm (List.set_set_perm hi hj)
    · rw [List.getElem?_eq_none (by omega : content.length ≤ j)]
      split <;> first | rfl | exact absurd ‹_› (by simp)
  · rw [List.getElem?_eq_none (by omega : content.length ≤ i)]

theorem fine_swap (h : f.Accounted st) {index1 index2 : ℤ} :
    f.Fine st (swap i index1 index2 st) := by
  rw [swap]
  by_cases hrange : index1 < 0 ∨ toInt32 (st.stack i).length ≤ index1 ∨ index2 < 0 ∨
      toInt32 (st.stack i).length ≤ index2
  · exact .inl ⟨_, if_pos hrange⟩
  · refine .inr ⟨_, if_neg hrange, ?_⟩
    exact h.replace (combinedStackSize_swapElements _ _ _)

theorem fine_replaceStackContent (h : f.Accounted st) {newContent : List StackElement} :
    f.Fine st (f.replaceStackContent i newContent st) := by
  have hle := h.usage_le i
  have hlimit := h.exact.le_limit (f.root i)
  rw [replaceStackContent]
  simp only [if_neg (show ¬ f.getCombinedStackSize i st <
    AtomicProof.combinedStackSize (st.stack i) by omega)]
  by_cases hgrow : AtomicProof.combinedStackSize (st.stack i) <
      AtomicProof.combinedStackSize newContent
  · rw [if_pos hgrow]
    by_cases hfits : f.getCombinedStackSize i st + (AtomicProof.combinedStackSize newContent -
        AtomicProof.combinedStackSize (st.stack i)) ≤ f.maxStackSize (f.root i)
    · rw [increase_of_fits hfits]
      exact .inr ⟨_, rfl, h.set (by omega) hfits⟩
    · rw [increase_of_not_fits (by omega)]
      exact .inl ⟨_, rfl⟩
  · rw [if_neg hgrow]
    by_cases hshrink : AtomicProof.combinedStackSize newContent <
        AtomicProof.combinedStackSize (st.stack i)
    · rw [if_pos hshrink, decrease_of_le (by omega)]
      refine .inr ⟨_, rfl, h.set (by omega) ?_⟩
      rw [getCombinedStackSize]
      omega
    · rw [if_neg hshrink]
      have hsame : AtomicProof.combinedStackSize newContent =
          AtomicProof.combinedStackSize (st.stack i) := by omega
      exact .inr ⟨_, rfl, h.replace hsame⟩

/-- The elements of a stack are taken off one by one, which takes off all of them. -/
theorem foldl_decrease (f : StackForest n) (i : Fin n) (st : OpStacks n)
    {content : List StackElement} {size : ℕ}
    (hle : AtomicProof.combinedStackSize content ≤ size) :
    content.foldl (fun st element => f.decreaseCombinedStackSize i element.getMemoryUsage st)
        (st.setCounter (f.root i) size) =
      st.setCounter (f.root i) (size - AtomicProof.combinedStackSize content) := by
  induction content generalizing size with
  | nil => rfl
  | cons element content ih =>
      rw [combinedStackSize_cons] at hle ⊢
      have hcounter : f.getCombinedStackSize i (st.setCounter (f.root i) size) = size := by
        simp [getCombinedStackSize, OpStacks.setCounter]
      rw [List.foldl_cons, decrease_of_le (by omega), hcounter, OpStacks.setCounter_setCounter,
        ih (by omega), Nat.sub_sub]

theorem fine_clear (h : f.Accounted st) : f.Fine st (f.clear i st) := by
  have hle := h.usage_le i
  have hlimit := h.exact.le_limit (f.root i)
  have hself : st.setCounter (f.root i) (f.getCombinedStackSize i st) = st :=
    OpStacks.setCounter_self st (f.root i)
  have hfold := foldl_decrease f i st hle
  rw [hself] at hfold
  rw [clear]
  simp only [hfold]
  refine .inr ⟨_, rfl, h.set ?_ ?_⟩
  · rw [combinedStackSize_nil]
    omega
  · rw [getCombinedStackSize]
    omega

end StackForest

/-! ### Moves between stacks -/

namespace StackForest

variable {n : ℕ} {f : StackForest n} {st : OpStacks n} {i other : Fin n} {forceAllow : Bool}

/-- A forced move of an element to another tree has to find room there. -/
def MoveFits (f : StackForest n) (st : OpStacks n) : StackOp n → Prop
  | .moveTopToStack i otherStack forceAllow =>
      forceAllow = true → f.root i ≠ f.root otherStack → ∀ topElement,
        (st.stack otherStack).getLast? = some topElement →
          f.getCombinedStackSize i st + topElement.getMemoryUsage ≤ f.maxStackSize (f.root i)
  | _ => True

theorem fine_moveTopToStack_of_idle (h : f.Accounted st)
    (hidle : (forceAllow = false ∧ f.parentStack i ≠ some other ∧ f.parentStack other ≠ some i) ∨
      (st.stack other).getLast? = none) :
    f.Fine st (f.moveTopToStack i other forceAllow st) := by
  rw [moveTopToStack]
  split_ifs with hallowed
  · exact .inl ⟨_, rfl⟩
  · rw [hidle.resolve_left hallowed]
    exact .inr ⟨st, rfl, h⟩

/-- The state between taking an element from one stack and adding it to another. -/
def taken (f : StackForest n) (other : Fin n) (topElement : StackElement) (st : OpStacks n) :
    OpStacks n :=
  (st.setCounter (f.root other) (f.getCombinedStackSize other st - topElement.getMemoryUsage)).setStack
    other (st.stack other).dropLast

theorem accounted_taken (h : f.Accounted st) {topElement : StackElement}
    (hlast : (st.stack other).getLast? = some topElement) :
    f.Accounted (f.taken other topElement st) := by
  have hle := h.usage_le other
  have hlimit := h.exact.le_limit (f.root other)
  have hdrop := combinedStackSize_dropLast hlast
  refine h.set (by omega) ?_
  rw [getCombinedStackSize]
  omega

/-- An allowed move takes the element, whether it then finds room for it or not. -/
theorem moveTopToStack_eq (h : f.Accounted st) {topElement : StackElement}
    (hallowed : ¬ (forceAllow = false ∧ f.parentStack i ≠ some other ∧
      f.parentStack other ≠ some i))
    (hlast : (st.stack other).getLast? = some topElement) :
    f.moveTopToStack i other forceAllow st =
      if f.maxStackSize (f.root i) <
          f.getCombinedStackSize i (f.taken other topElement st) + topElement.getMemoryUsage then
        (some stackOverflow, st.setCounter (f.root other)
          (f.getCombinedStackSize other st - topElement.getMemoryUsage))
      else
        (none, ((f.taken other topElement st).setCounter (f.root i)
          (f.getCombinedStackSize i (f.taken other topElement st) +
            topElement.getMemoryUsage)).setStack i
          ((f.taken other topElement st).stack i ++ [topElement])) := by
  have hle := h.usage_le other
  have hdrop := combinedStackSize_dropLast hlast
  rw [moveTopToStack, if_neg hallowed, hlast]
  simp only [decrease_of_le (show topElement.getMemoryUsage ≤ f.getCombinedStackSize other st by omega)]
  have hcounter : f.getCombinedStackSize i (st.setCounter (f.root other)
      (f.getCombinedStackSize other st - topElement.getMemoryUsage)) =
        f.getCombinedStackSize i (f.taken other topElement st) := rfl
  split_ifs with hroom
  · rw [← hcounter] at hroom
    rw [increase_of_not_fits hroom]
    rfl
  · rw [← hcounter, not_lt] at hroom
    rw [increase_of_fits hroom]
    rfl

theorem getCombinedStackSize_taken (topElement : StackElement) :
    f.getCombinedStackSize i (f.taken other topElement st) =
      if f.root i = f.root other then
        f.getCombinedStackSize other st - topElement.getMemoryUsage
      else f.getCombinedStackSize i st := by
  rw [getCombinedStackSize, getCombinedStackSize]
  split_ifs with hroot
  · rw [hroot]
    exact Function.update_self ..
  · exact Function.update_of_ne hroot ..

/-! ### Exactness and atomicity -/

/-- What is asked of an operation: the accounts are exact afterwards, and if it throws every stack and
every counter is as before. -/
structure AccountsExactly (f : StackForest n) (st : OpStacks n) (op : StackOp n) : Prop where
  accounted : f.Accounted (f.step st op).2
  atomic : ∀ error, (f.step st op).1 = some error → (f.step st op).2 = st

theorem Fine.accountsExactly (h : f.Accounted st) {op : StackOp n} (hfine : f.Fine st (f.step st op)) :
    f.AccountsExactly st op := by
  rcases hfine with ⟨error, herror⟩ | ⟨st', hok, haccounted⟩
  · refine ⟨?_, fun _ _ => ?_⟩
    · rw [herror]
      exact h
    · rw [herror]
  · refine ⟨?_, fun error herror => ?_⟩
    · rw [hok]
      exact haccounted
    · rw [hok] at herror
      exact nomatch herror

theorem moveTopToStack_accountsExactly_iff (h : f.Accounted st) :
    f.AccountsExactly st (.moveTopToStack i other forceAllow) ↔
      f.MoveFits st (.moveTopToStack i other forceAllow) := by
  by_cases hidle : (forceAllow = false ∧ f.parentStack i ≠ some other ∧
      f.parentStack other ≠ some i) ∨ (st.stack other).getLast? = none
  · refine iff_of_true (Fine.accountsExactly h (fine_moveTopToStack_of_idle h hidle)) ?_
    intro hforce _ topElement hlast
    rcases hidle with ⟨hno, -⟩ | hnone
    · exact absurd (hforce.symm.trans hno) (by decide)
    · exact nomatch hnone.symm.trans hlast
  · rw [not_or] at hidle
    obtain ⟨hallowed, hsome⟩ := hidle
    obtain ⟨topElement, hlast⟩ := Option.ne_none_iff_exists'.1 hsome
    have hmove := moveTopToStack_eq h hallowed hlast
    have hle := h.usage_le other
    have hdrop := combinedStackSize_dropLast hlast
    have hsize : 32 ≤ topElement.getMemoryUsage := Nat.le_add_right 32 _
    have hcounter : f.getCombinedStackSize i (f.taken other topElement st) = _ :=
      getCombinedStackSize_taken topElement
    have hgiven : f.getCombinedStackSize i (f.taken other topElement st) +
        topElement.getMemoryUsage ≤ f.maxStackSize (f.root i) →
        f.AccountsExactly st (.moveTopToStack i other forceAllow) := by
      intro hfits
      rw [if_neg (not_lt.2 hfits)] at hmove
      exact Fine.accountsExactly h (.inr ⟨_, hmove, (accounted_taken h hlast).set (by simp; omega) hfits⟩)
    by_cases hroot : f.root i = f.root other
    -- within one tree what was taken is added again
    · refine iff_of_true (hgiven ?_) fun _ hne => absurd hroot hne
      have hlimit := h.exact.le_limit (f.root other)
      rw [hcounter, if_pos hroot, hroot, getCombinedStackSize] at *
      omega
    · rw [if_neg hroot] at hcounter
      have hforce : forceAllow = true := by
        by_contra hno
        have hrelated := root_eq_of_related (f := f) (i := i) (j := other)
        refine hallowed ⟨by simpa using hno, fun hparent => ?_, fun hparent => ?_⟩
        · exact hroot (hrelated (.inl hparent))
        · exact hroot (hrelated (.inr hparent))
      constructor
      · intro hexactly _ _ top htop
        obtain rfl := Option.some.inj (hlast.symm.trans htop)
        by_contra hnoroom
        -- the destination throws after the other root has been counted down
        rw [hcounter, if_pos (not_le.1 hnoroom)] at hmove
        have hsame := hexactly.atomic stackOverflow (by rw [step, hmove])
        rw [step, hmove] at hsame
        have hchanged := congrArg (f.getCombinedStackSize other) hsame
        have hself : f.getCombinedStackSize other (st.setCounter (f.root other)
            (f.getCombinedStackSize other st - topElement.getMemoryUsage)) =
              f.getCombinedStackSize other st - topElement.getMemoryUsage := Function.update_self ..
        rw [hself] at hchanged
        omega
      · intro hfits
        refine hgiven ?_
        rw [hcounter]
        exact hfits hforce hroot topElement hlast

/-- **An operation is exact and atomic exactly where its move fits.** -/
theorem accountsExactly_iff (h : f.Accounted st) (op : StackOp n) :
    f.AccountsExactly st op ↔ f.MoveFits st op := by
  cases op with
  | push i element => exact iff_of_true (Fine.accountsExactly h (fine_push h)) trivial
  | pop i => exact iff_of_true (Fine.accountsExactly h (fine_pop h)) trivial
  | erase i index => exact iff_of_true (Fine.accountsExactly h (fine_erase h)) trivial
  | insert i position element => exact iff_of_true (Fine.accountsExactly h (fine_insert h)) trivial
  | swap i index1 index2 => exact iff_of_true (Fine.accountsExactly h (fine_swap h)) trivial
  | replaceStackContent i newContent =>
      exact iff_of_true (Fine.accountsExactly h (fine_replaceStackContent h)) trivial
  | moveTopToStack i other forceAllow => exact moveTopToStack_accountsExactly_iff h
  | clear i => exact iff_of_true (Fine.accountsExactly h (fine_clear h)) trivial

/-- **The same for all operations of a run from empty stacks.** -/
theorem run_accountsExactly_iff (f : StackForest n) (run : List (StackOp n)) :
    AlongRun (fun st op => (f.step st op).2) f.AccountsExactly .empty run ↔
      AlongRun (fun st op => (f.step st op).2) f.MoveFits .empty run :=
  alongRun_iff f.Accounted (fun _ _ _ hgood => hgood.accounted)
    (fun _ op h => accountsExactly_iff h op) accounted_empty run

/-- An element of 32 bytes is moved between two roots, of which the second has room for 40: the first one
no longer counts the element that it still has. -/
theorem forced_move_loses_count :
    ¬ AlongRun
        (fun st op => ((⟨fun _ => none, fun i => if i = 0 then 100 else 40, nofun⟩ :
          StackForest 2).step st op).2)
        (AccountsExactly ⟨fun _ => none, fun i => if i = 0 then 100 else 40, nofun⟩) .empty
        [.push 0 ⟨"a", "", ""⟩, .push 1 ⟨"b", "", ""⟩, .moveTopToStack 1 0 true] := by
  rintro ⟨-, -, ⟨-, hatomic⟩, -⟩
  have hsame := hatomic stackOverflow rfl
  exact absurd (congrArg (fun st : OpStacks 2 => st.combinedStackSize 0) hsame) (by decide)

end StackForest

end AtomicProof
