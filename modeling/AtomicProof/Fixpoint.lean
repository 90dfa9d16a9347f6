/-
Round-robin iteration to a fixed point.

A data-flow analysis keeps one value for every index and goes over the indices in a fixed order,
again and again, replacing the value at each index by what a transfer function gives for the values
as they stand, until a round changes nothing.  Every round after the first replacement already sees
the new values, so a round is not one application of the transfer function to all indices.

Main definitions:

* `Fixpoint.sweep` — one round over the indices of a list;
* `Fixpoint.untilStable` — rounds until one changes nothing, at most a given number of them;
* `Fixpoint.Ascending` — the values at the indices of a list are below what they are replaced by.

Main results:

* `Fixpoint.sweep_stable` — a round that changes nothing is a fixed point at every index;
* `Fixpoint.Ascending.sweep` — rounds of a monotone transfer function only go up;
* `Fixpoint.untilStable_sweep`, `Fixpoint.untilStable_sweep_of_descending` — **enough rounds reach
  a fixed point**, whether they go up or down.
-/

import Mathlib.Algebra.BigOperators.Group.Finset.Basic
import Mathlib.Algebra.Order.BigOperators.Group.Finset
import Mathlib.Data.Fintype.Pi
import Mathlib.Logic.Function.Basic
import Mathlib.Order.Monotone.Basic

set_option autoImplicit false

namespace Fixpoint

/-! ### Repeating until stable -/

section Repeat

variable {σ : Type*} [DecidableEq σ]

/-- Rounds until one changes nothing, at most `fuel` of them. -/
def untilStable (round : σ → σ) : ℕ → σ → σ
  | 0, s => s
  | fuel + 1, s => if round s = s then s else untilStable round fuel (round s)

/-- Enough rounds are stable, when every round that changes something lowers a measure. -/
theorem untilStable_spec {round : σ → σ} (inv : σ → Prop) (measure : σ → ℕ)
    (hinv : ∀ s, inv s → inv (round s))
    (hmeasure : ∀ s, inv s → round s ≠ s → measure (round s) < measure s) (fuel : ℕ) (s : σ)
    (hs : inv s) (hfuel : measure s ≤ fuel) :
    inv (untilStable round fuel s) ∧
      round (untilStable round fuel s) = untilStable round fuel s := by
  induction fuel generalizing s with
  | zero =>
      refine ⟨hs, ?_⟩
      by_contra hne
      have := hmeasure s hs hne
      omega
  | succ fuel ih =>
      rw [untilStable]
      by_cases hstable : round s = s
      · rw [if_pos hstable]
        exact ⟨hs, hstable⟩
      · rw [if_neg hstable]
        have hless := hmeasure s hs hstable
        exact ih (round s) (hinv s hs) (by omega)

theorem untilStable_induction {round : σ → σ} (inv : σ → Prop) (hround : ∀ s, inv s → inv (round s))
    (fuel : ℕ) {s : σ} (hs : inv s) : inv (untilStable round fuel s) := by
  induction fuel generalizing s with
  | zero => exact hs
  | succ fuel ih =>
      rw [untilStable]
      split_ifs
      · exact hs
      · exact ih (hround s hs)

theorem untilStable_eq_iterate (round : σ → σ) (fuel : ℕ) (s : σ) :
    ∃ rounds, untilStable round fuel s = round^[rounds] s := by
  induction fuel generalizing s with
  | zero => exact ⟨0, rfl⟩
  | succ fuel ih =>
      rw [untilStable]
      split_ifs
      · exact ⟨0, rfl⟩
      · obtain ⟨rounds, h⟩ := ih (round s)
        exact ⟨rounds + 1, h⟩

end Repeat

/-! ### One round -/

section Sweep

variable {ι L : Type*} [DecidableEq ι]

/-- One round over the indices of a list: the value at each index is replaced by what `transfer`
gives for the values as they then stand. -/
def sweep (transfer : (ι → L) → ι → L) : List ι → (ι → L) → ι → L
  | [], s => s
  | i :: order, s => sweep transfer order (Function.update s i (transfer s i))

variable {transfer : (ι → L) → ι → L}
variable {order : List ι} {s : ι → L}

@[simp] theorem sweep_nil (s : ι → L) : sweep transfer [] s = s := rfl

theorem sweep_cons (i : ι) (order : List ι) (s : ι → L) :
    sweep transfer (i :: order) s = sweep transfer order (Function.update s i (transfer s i)) :=
  rfl

theorem sweep_of_notMem {i : ι} (hi : i ∉ order) (s : ι → L) : sweep transfer order s i = s i := by
  induction order generalizing s with
  | nil => rfl
  | cons j order ih =>
      rw [List.mem_cons, not_or] at hi
      rw [sweep_cons, ih hi.2, Function.update_of_ne hi.1]

/-- A round that changes nothing replaces no value by another. -/
theorem sweep_stable (hnodup : order.Nodup)
    (h : sweep transfer order s = s) : ∀ i ∈ order, transfer s i = s i := by
  induction order with
  | nil => simp
  | cons j order ih =>
      rw [List.nodup_cons] at hnodup
      rw [sweep_cons] at h
      -- the value at `j` is not touched again in this round
      have hj : transfer s j = s j := by
        have := congrFun h j
        rwa [sweep_of_notMem hnodup.1, Function.update_self] at this
      have hsame : Function.update s j (transfer s j) = s := by
        rw [hj, Function.update_eq_self]
      rw [hsame] at h
      intro i hi
      rcases List.mem_cons.1 hi with rfl | hi
      · exact hj
      · exact ih hnodup.2 h i hi

theorem sweep_eq_self (h : ∀ i ∈ order, transfer s i = s i) : sweep transfer order s = s := by
  induction order with
  | nil => rfl
  | cons i order ih =>
      rw [sweep_cons, h i List.mem_cons_self, Function.update_eq_self]
      exact ih fun j hj => h j (List.mem_cons_of_mem _ hj)

theorem sweep_induction (inv : (ι → L) → Prop)
    (hstep : ∀ s, ∀ i ∈ order, inv s → inv (Function.update s i (transfer s i)))
    (hs : inv s) : inv (sweep transfer order s) := by
  induction order generalizing s with
  | nil => exact hs
  | cons i order ih =>
      rw [sweep_cons]
      refine ih (fun s j hj => hstep s j (List.mem_cons_of_mem _ hj)) ?_
      exact hstep s i List.mem_cons_self hs

theorem sweep_forall {keeps : L → Prop} (order : List ι)
    (hkeeps : ∀ s, (∀ i, keeps (s i)) → ∀ i, keeps (transfer s i))
    (hs : ∀ i, keeps (s i)) (i : ι) : keeps (sweep transfer order s i) := by
  refine sweep_induction (fun t => ∀ i, keeps (t i)) ?_ hs i
  intro t j _ ht k
  by_cases hk : k = j
  · subst hk
    rw [Function.update_self]
    exact hkeeps t ht k
  · rw [Function.update_of_ne hk]
    exact ht k

end Sweep

/-! ### Monotone transfer functions -/

section Monotone

variable {ι L : Type*} [DecidableEq ι] [PartialOrder L] {transfer : (ι → L) → ι → L}
variable {order : List ι} {s : ι → L}

/-- The values at the indices of a list are below what they are replaced by. -/
def Ascending (transfer : (ι → L) → ι → L) (order : List ι) (s : ι → L) : Prop :=
  ∀ i ∈ order, s i ≤ transfer s i

theorem Ascending.le_update (h : Ascending transfer order s) {i : ι}
    (hi : i ∈ order) : s ≤ Function.update s i (transfer s i) := by
  intro j
  by_cases hj : j = i
  · subst hj
    rw [Function.update_self]
    exact h j hi
  · rw [Function.update_of_ne hj]

theorem Ascending.update (hmono : Monotone transfer)
    (h : Ascending transfer order s) {i : ι} (hi : i ∈ order) :
    Ascending transfer order (Function.update s i (transfer s i)) := by
  have hle := h.le_update hi
  intro j hj
  by_cases hji : j = i
  · subst hji
    rw [Function.update_self]
    exact hmono hle j
  · rw [Function.update_of_ne hji]
    exact (h j hj).trans (hmono hle j)

/-- **A round of a monotone transfer function goes up**, and leaves values that go up again. -/
theorem Ascending.sweep (hmono : Monotone transfer) (h : Ascending transfer order s) :
    Ascending transfer order (sweep transfer order s) ∧ s ≤ Fixpoint.sweep transfer order s := by
  refine sweep_induction (fun t => Ascending transfer order t ∧ s ≤ t) ?_ ⟨h, le_rfl⟩
  intro t i hi ⟨hasc, hle⟩
  exact ⟨hasc.update hmono hi, hle.trans (hasc.le_update hi)⟩

variable [Fintype ι] [DecidableEq L]

/-- **Enough rounds of a monotone transfer function reach a fixed point**, when they go up from the
start and going up among the values that `keeps` holds of lowers `rank`. -/
theorem untilStable_sweep (hmono : Monotone transfer) {order : List ι} (hnodup : order.Nodup)
    {keeps : L → Prop} (hkeeps : ∀ s, (∀ i, keeps (s i)) → ∀ i, keeps (transfer s i))
    {rank : L → ℕ} (hrank : ∀ x y, x < y → keeps y → rank y < rank x) {s : ι → L}
    (hasc : Ascending transfer order s) (hs : ∀ i, keeps (s i)) {fuel : ℕ}
    (hfuel : ∑ i, rank (s i) ≤ fuel) :
    ∀ i ∈ order, transfer (untilStable (sweep transfer order) fuel s) i =
      untilStable (sweep transfer order) fuel s i := by
  refine sweep_stable hnodup (untilStable_spec
    (fun t => Ascending transfer order t ∧ ∀ i, keeps (t i)) (fun t => ∑ i, rank (t i)) ?_ ?_ fuel s
    ⟨hasc, hs⟩ hfuel).2
  · rintro t ⟨ht, hkeep⟩
    exact ⟨(ht.sweep hmono).1, sweep_forall order hkeeps hkeep⟩
  · rintro t ⟨ht, hkeep⟩ hne
    have hle := (ht.sweep hmono).2
    have hkeep' := sweep_forall order hkeeps hkeep
    -- some value has grown, and no value has shrunk
    have hle_rank : ∀ i, rank (sweep transfer order t i) ≤ rank (t i) := by
      intro i
      rcases (hle i).eq_or_lt with heq | hlt
      · rw [heq]
      · exact (hrank _ _ hlt (hkeep' i)).le
    obtain ⟨i, hi⟩ := Function.ne_iff.1 hne
    have hlt : t i < sweep transfer order t i := lt_of_le_of_ne (hle i) (Ne.symm hi)
    exact Finset.sum_lt_sum (fun i _ => hle_rank i)
      ⟨i, Finset.mem_univ i, hrank _ _ hlt (hkeep' i)⟩

theorem untilStable_sweep_of_descending (hmono : Monotone transfer)
    (hnodup : order.Nodup) {rank : L → ℕ} (hrank : ∀ x y, x < y → rank x < rank y)
    (hdesc : ∀ i ∈ order, transfer s i ≤ s i) {fuel : ℕ} (hfuel : ∑ i, rank (s i) ≤ fuel) :
    ∀ i ∈ order, transfer (untilStable (sweep transfer order) fuel s) i =
      untilStable (sweep transfer order) fuel s i :=
  @untilStable_sweep ι Lᵒᵈ _ (OrderDual.instPartialOrder L) transfer _ _ (fun _ _ hst => hmono hst) order hnodup
    (fun _ => True) (fun _ _ _ => trivial) rank (fun x y hxy _ => hrank y x hxy) s hdesc
    (fun _ => trivial) fuel hfuel

end Monotone

end Fixpoint
