/-
The rank of a permutation.

The permutations of `0, …, n - 1` are numbered by their inversion counts, read as digits in the
factorial number system.  This is the numbering of the lexicographic order; the identity has rank
zero.

Main definitions:

* `PermutationRank.rank` — the number of a permutation;
* `PermutationRank.unrank` — the permutation of a number.

Main results:

* `PermutationRank.rank_lt` — the rank of a permutation of `n` entries is below `n!`;
* `PermutationRank.unrank_perm` — every number below `n!` is the number of a permutation;
* `PermutationRank.unrank_rank` — **the permutation of its rank is the permutation**.
-/

import Mathlib.Data.List.GetD
import Mathlib.Data.List.Perm.Basic
import Mathlib.Data.List.Range
import Mathlib.Data.Nat.Factorial.Basic
import Mathlib.Tactic.Ring

set_option autoImplicit false

open scoped Nat

namespace PermutationRank

/-! ### Ranking and unranking -/

/-- The number of a list of distinct entries: the digit of an entry counts the smaller ones after
it. -/
def rank : List ℕ → ℕ
  | [] => 0
  | a :: rest => rest.countP (· < a) * rest.length ! + rank rest

/-- The list of `remaining` entries of `available` with the number `r`. -/
def unrankFrom : ℕ → List ℕ → ℕ → List ℕ
  | 0, _, _ => []
  | remaining + 1, available, r =>
      available.getD (r / remaining !) 0 ::
        unrankFrom remaining (available.eraseIdx (r / remaining !)) (r % remaining !)

/-- The permutation of `0, …, n - 1` with the number `r`. -/
def unrank (n r : ℕ) : List ℕ := unrankFrom n (List.range n) r

/-! ### The numbers of permutations -/

theorem rank_lt (p : List ℕ) : rank p < p.length ! := by
  induction p with
  | nil => simp [rank]
  | cons a rest ih =>
      have hdigit : rest.countP (· < a) * rest.length ! ≤ rest.length * rest.length ! :=
        Nat.mul_le_mul_right _ List.countP_le_length
      have hfact : (rest.length + 1)! = rest.length * rest.length ! + rest.length ! := by
        rw [Nat.factorial_succ]
        ring
      rw [rank, List.length_cons, hfact]
      omega

variable {n r : ℕ} {available : List ℕ}

theorem div_factorial_lt (h : r < (n + 1)!) : r / n ! < n + 1 := by
  rw [Nat.div_lt_iff_lt_mul (Nat.factorial_pos n), ← Nat.factorial_succ]
  exact h

theorem unrankFrom_perm (hlen : available.length = n)
    (hr : r < n !) : (unrankFrom n available r).Perm available := by
  induction n generalizing available r with
  | zero =>
      obtain rfl := List.length_eq_zero_iff.1 hlen
      exact List.Perm.refl _
  | succ n ih =>
      have hsel : r / n ! < available.length := by
        rw [hlen]
        exact div_factorial_lt hr
      have herase : (available.eraseIdx (r / n !)).length = n := by
        rw [List.length_eraseIdx_of_lt hsel, hlen]
        rfl
      rw [unrankFrom, List.getD_eq_getElem _ _ hsel]
      exact ((ih herase (Nat.mod_lt _ (Nat.factorial_pos n))).cons _).trans
        (List.getElem_cons_eraseIdx_perm hsel)

/-- **Every number below `n!` is the number of a permutation.** -/
theorem unrank_perm (hr : r < n !) : (unrank n r).Perm (List.range n) :=
  unrankFrom_perm List.length_range hr

theorem unrankFrom_zero (hlen : available.length = n) : unrankFrom n available 0 = available := by
  induction n generalizing available with
  | zero => exact (List.length_eq_zero_iff.1 hlen).symm
  | succ n ih =>
      match available, hlen with
      | a :: available, hlen =>
          simp only [List.length_cons, Nat.add_right_cancel_iff] at hlen
          simp [unrankFrom, ih hlen]

@[simp] theorem unrank_zero (n : ℕ) : unrank n 0 = List.range n :=
  unrankFrom_zero List.length_range

/-- In an increasing list the entries smaller than a member are those before it. -/
theorem getElem?_countP_lt {l : List ℕ} (hl : l.Pairwise (· < ·)) {a : ℕ} (ha : a ∈ l) :
    l[l.countP (· < a)]? = some a := by
  induction hl with
  | nil => simp at ha
  | @cons b l hb hl ih =>
      rcases List.mem_cons.1 ha with rfl | ha
      · have hzero : l.countP (· < a) = 0 := by
          rw [List.countP_eq_zero]
          intro c hc
          simpa using (hb c hc).le
        simp [hzero]
      · have hlt : b < a := hb a ha
        simpa [List.countP_cons, hlt] using ih ha

theorem unrankFrom_rank {p : List ℕ} (hperm : p.Perm available)
    (hsorted : available.Pairwise (· < ·)) : unrankFrom p.length available (rank p) = p := by
  induction p generalizing available with
  | nil => rfl
  | cons a rest ih =>
      have hpos := Nat.factorial_pos rest.length
      have hdiv : rank (a :: rest) / rest.length ! = rest.countP (· < a) := by
        rw [rank, Nat.mul_comm, Nat.mul_add_div hpos, Nat.div_eq_of_lt (rank_lt rest), Nat.add_zero]
      have hmod : rank (a :: rest) % rest.length ! = rank rest := by
        rw [rank, Nat.mul_comm, Nat.mul_add_mod, Nat.mod_eq_of_lt (rank_lt rest)]
      have hcount : available.countP (· < a) = rest.countP (· < a) := by
        rw [← hperm.countP_eq, List.countP_cons]
        simp
      have hget := getElem?_countP_lt hsorted (hperm.subset (List.mem_cons_self ..))
      rw [hcount] at hget
      obtain ⟨hlt, hval⟩ := List.getElem?_eq_some_iff.1 hget
      have hrest : rest.Perm (available.eraseIdx (rest.countP (· < a))) := by
        have := hperm.trans (List.getElem_cons_eraseIdx_perm hlt).symm
        rw [hval] at this
        exact this.cons_inv
      rw [List.length_cons, unrankFrom, hdiv, hmod, List.getD_eq_getElem?_getD, hget,
        ih hrest (hsorted.sublist (List.eraseIdx_sublist ..))]
      rfl

/-- **The permutation of its rank is the permutation.** -/
theorem unrank_rank {p : List ℕ} (hp : p.Perm (List.range n)) : unrank n (rank p) = p := by
  have hlen : p.length = n := by rw [hp.length_eq, List.length_range]
  rw [unrank, ← hlen]
  refine unrankFrom_rank ?_ List.pairwise_lt_range
  rw [hlen]
  exact hp

/-- In an increasing list the entries smaller than the one at a place are those before it. -/
theorem countP_lt_eraseIdx {l : List ℕ} (hl : l.Pairwise (· < ·)) {k : ℕ} (hk : k < l.length) :
    (l.eraseIdx k).countP (· < l[k]) = k := by
  have hsplit : l.eraseIdx k = l.take k ++ l.drop (k + 1) := List.eraseIdx_eq_take_drop_succ l k
  have hbefore : (l.take k).countP (· < l[k]) = k := by
    have hall : ∀ a ∈ l.take k, (decide (a < l[k])) = true := by
      intro a ha
      obtain ⟨i, hi, rfl⟩ := List.mem_take_iff_getElem.mp ha
      rw [decide_eq_true_eq]
      exact List.pairwise_iff_getElem.mp hl i k (by omega) hk (by omega)
    rw [List.countP_eq_length.mpr hall, List.length_take]
    omega
  have hafter : (l.drop (k + 1)).countP (· < l[k]) = 0 := by
    rw [List.countP_eq_zero]
    intro a ha
    obtain ⟨i, hi, rfl⟩ := List.mem_drop_iff_getElem.mp ha
    rw [decide_eq_true_eq, not_lt]
    exact (List.pairwise_iff_getElem.mp hl k (k + 1 + i) hk (by omega) (by omega)).le
  rw [hsplit, List.countP_append, hbefore, hafter, Nat.add_zero]

theorem rank_unrankFrom (hlen : available.length = n)
    (hsorted : available.Pairwise (· < ·)) (hr : r < n !) :
    rank (unrankFrom n available r) = r := by
  induction n generalizing available r with
  | zero =>
      rw [Nat.factorial_zero] at hr
      rw [unrankFrom, rank]
      omega
  | succ n ih =>
      have hsel : r / n ! < available.length := by
        rw [hlen]
        exact div_factorial_lt hr
      have herase : (available.eraseIdx (r / n !)).length = n := by
        rw [List.length_eraseIdx_of_lt hsel, hlen]
        rfl
      have hmod := Nat.mod_lt r (Nat.factorial_pos n)
      have hperm := unrankFrom_perm herase hmod
      rw [unrankFrom, List.getD_eq_getElem _ _ hsel, rank,
        ih herase (hsorted.sublist (List.eraseIdx_sublist ..)) hmod, hperm.countP_eq,
        countP_lt_eraseIdx hsorted hsel, hperm.length_eq, herase]
      exact Nat.div_add_mod' r n !

/-- **The rank of the permutation with a number is the number.** -/
theorem rank_unrank (hr : r < n !) : rank (unrank n r) = r :=
  rank_unrankFrom List.length_range List.pairwise_lt_range hr

end PermutationRank
