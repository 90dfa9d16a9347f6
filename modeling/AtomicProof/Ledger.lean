/-
Ledgers.

Each of finitely many accounts belongs to an owner, and an owner keeps one counter for all of its
accounts.  The counter is to be the sum of their balances and no larger than the owner's limit.  A
change of one balance keeps this when the counter is moved by the same amount.

Main definitions:

* `Ledger.total` — the balances of an owner's accounts;
* `Ledger.Exact` — every counter is the total and within the limit;
* `AlongRun` — a property of every step of a run.

Main results:

* `Ledger.total_update` — a change of one balance;
* `Ledger.Exact.set` — **a change of one balance with the counter moved along is exact**;
* `alongRun_iff` — the run rule: what is equivalent at every step is equivalent along every run.
-/

import Mathlib.Algebra.BigOperators.Group.Finset.Piecewise
import Mathlib.Algebra.Order.BigOperators.Group.Finset
import Mathlib.Algebra.GroupWithZero.Nat
import Mathlib.Data.Fintype.Basic

set_option autoImplicit false

namespace AtomicProof

namespace Ledger

/-! ### Totals -/

section Totals

variable {ι κ : Type*} [Fintype ι] [DecidableEq κ]

def total (owner : ι → κ) (balance : ι → ℕ) (k : κ) : ℕ :=
  ∑ i with owner i = k, balance i

variable {owner : ι → κ} {balance : ι → ℕ} {counter limit : κ → ℕ} {i : ι} {k : κ} {x : ℕ}

theorem balance_le_total : balance i ≤ total owner balance (owner i) :=
  Finset.single_le_sum (fun _ _ => Nat.zero_le _) (by simp)

variable [DecidableEq ι]

theorem total_update_of_ne (h : owner i ≠ k) :
    total owner (Function.update balance i x) k = total owner balance k := by
  refine Finset.sum_congr rfl fun j hj => ?_
  rw [Function.update_of_ne]
  rintro rfl
  exact h (Finset.mem_filter.1 hj).2

/-- **A change of one balance** changes its owner's total by as much. -/
theorem total_update :
    total owner (Function.update balance i x) (owner i) + balance i =
      total owner balance (owner i) + x := by
  have hmem : i ∈ Finset.univ.filter fun j => owner j = owner i := by simp
  unfold total
  rw [Finset.sum_update_of_mem hmem, ← Finset.add_sum_erase _ _ hmem, Finset.sdiff_singleton_eq_erase]
  omega

end Totals

/-! ### Exact ledgers -/

variable {ι κ : Type*} [Fintype ι] [DecidableEq κ]
  {owner : ι → κ} {limit counter : κ → ℕ} {balance : ι → ℕ} {i : ι} {x : ℕ}

/-- Every counter is the total of its owner's accounts and within the owner's limit. -/
structure Exact (owner : ι → κ) (limit : κ → ℕ) (balance : ι → ℕ) (counter : κ → ℕ) : Prop where
  counter_eq : ∀ k, counter k = total owner balance k
  le_limit : ∀ k, counter k ≤ limit k

theorem exact_zero : Exact owner limit 0 0 := by
  refine ⟨fun k => ?_, fun k => Nat.zero_le _⟩
  rw [total, Pi.zero_apply]
  exact (Finset.sum_const_zero).symm

theorem Exact.balance_le (h : Exact owner limit balance counter) : balance i ≤ counter (owner i) := by
  rw [h.counter_eq]
  exact balance_le_total

variable [DecidableEq ι]

/-- **A change of one balance with the counter moved along is exact**, where the limit allows it. -/
theorem Exact.set (h : Exact owner limit balance counter)
    (hfits : counter (owner i) + x ≤ limit (owner i) + balance i) :
    Exact owner limit (Function.update balance i x)
      (Function.update counter (owner i) (counter (owner i) + x - balance i)) := by
  have hle : balance i ≤ counter (owner i) := h.balance_le
  constructor
  · intro k
    by_cases hk : owner i = k
    · subst hk
      have hupdate : total owner (Function.update balance i x) (owner i) + balance i =
          total owner balance (owner i) + x := total_update
      rw [← h.counter_eq] at hupdate
      rw [Function.update_self]
      omega
    · rw [Function.update_of_ne (Ne.symm hk), total_update_of_ne hk, h.counter_eq]
  · intro k
    by_cases hk : owner i = k
    · subst hk
      rw [Function.update_self]
      omega
    · rw [Function.update_of_ne (Ne.symm hk)]
      exact h.le_limit k

end Ledger

/-! ### Runs -/

section Runs

variable {S O : Type*} {step : S → O → S} {good safe : S → O → Prop} {s : S}

def AlongRun (step : S → O → S) (good : S → O → Prop) : S → List O → Prop
  | _, [] => True
  | s, o :: rest => good s o ∧ AlongRun step good (step s o) rest

/-- **The run rule.**  Where good steps keep an invariant, and under it a step is good exactly where it
is safe, the good runs are the safe ones. -/
theorem alongRun_iff (invariant : S → Prop)
    (hkeep : ∀ s o, invariant s → good s o → invariant (step s o))
    (hiff : ∀ s o, invariant s → (good s o ↔ safe s o)) (hs : invariant s) (run : List O) :
    AlongRun step good s run ↔ AlongRun step safe s run := by
  induction run generalizing s with
  | nil => exact Iff.rfl
  | cons o rest ih =>
      rw [AlongRun, AlongRun, ← hiff s o hs]
      refine and_congr_right fun hgood => ?_
      exact ih (hkeep s o hs hgood)

end Runs

end AtomicProof
