/-
A supply of fresh numbers below a maximum.

A counter of a machine type hands out numbers that are not in use.  It is first moved past the
numbers that are; it is exhausted when it would have to go past the largest number of the type, and
then hands out nothing instead of beginning again at zero.

Main definitions:

* `FreshSupply.Supply`, `FreshSupply.avoid`, `FreshSupply.draw` — the counter;
* `FreshSupply.Fresh` — what is in use lies below the counter.

Main results:

* `FreshSupply.Fresh.avoid`, `FreshSupply.Fresh.draw` — both operations keep it, and **a number that
  is drawn is not in use and is a number of the type**.
-/

import Mathlib.Data.List.Basic

set_option autoImplicit false

namespace FreshSupply

structure Supply where
  next : ℕ
  available : Bool
  deriving DecidableEq, Repr

variable (maximum : ℕ)

/-- The successor of a number of the type, which begins again at zero after the maximum. -/
def succ (n : ℕ) : ℕ := (n + 1) % (maximum + 1)

theorem succ_of_lt {n : ℕ} (h : n < maximum) : succ maximum n = n + 1 :=
  Nat.mod_eq_of_lt (Nat.succ_lt_succ h)

/-- The counter moves past a number that is in use. -/
def avoid (s : Supply) (n : ℕ) : Supply :=
  if n = maximum then { s with available := false }
  else if s.available then { s with next := max s.next (succ maximum n) }
  else s

def draw (s : Supply) : Option (ℕ × Supply) :=
  if s.available then
    some (s.next,
      if s.next = maximum then { s with available := false }
      else { s with next := succ maximum s.next })
  else none

/-- A counter that is not exhausted is a number of the type above all that are in use. -/
structure Fresh (s : Supply) (used : List ℕ) : Prop where
  le : s.next ≤ maximum
  above : s.available = true → ∀ n ∈ used, n < s.next

variable {maximum} {s : Supply} {used : List ℕ}

theorem Fresh.empty (h : s.next ≤ maximum) : Fresh maximum s [] := ⟨h, by simp⟩

theorem Fresh.mono (h : Fresh maximum s used) {used' : List ℕ} (hsub : ∀ n ∈ used', n ∈ used) :
    Fresh maximum s used' :=
  ⟨h.le, fun havailable n hn => h.above havailable n (hsub n hn)⟩

/-- Moving past a number in use. -/
theorem Fresh.avoid (h : Fresh maximum s used) {n : ℕ} (hn : n ≤ maximum) :
    Fresh maximum (FreshSupply.avoid maximum s n) (n :: used) := by
  unfold FreshSupply.avoid
  split_ifs with hmax havailable
  · exact ⟨h.le, by simp⟩
  · have hlt : n < maximum := by omega
    rw [succ_of_lt _ hlt]
    have hle := h.le
    refine ⟨by simp only; omega, fun _ m hm => ?_⟩
    simp only
    rcases List.mem_cons.mp hm with rfl | hm
    · omega
    · have := h.above havailable m hm
      omega
  · exact ⟨h.le, fun hyes => absurd hyes havailable⟩

/-- Moving past a row of numbers in use. -/
theorem Fresh.foldl_avoid (h : Fresh maximum s used) {numbers : List ℕ}
    (hnumbers : ∀ n ∈ numbers, n ≤ maximum) :
    Fresh maximum (numbers.foldl (FreshSupply.avoid maximum) s) (numbers ++ used) := by
  induction numbers generalizing s used with
  | nil => exact h
  | cons n numbers ih =>
      have hrest := ih (h.avoid (hnumbers n List.mem_cons_self))
        fun m hm => hnumbers m (List.mem_cons_of_mem _ hm)
      refine hrest.mono fun m hm => ?_
      simp only [List.cons_append, List.mem_cons, List.mem_append] at hm ⊢
      rcases hm with rfl | hm | hm
      · exact Or.inr (Or.inl rfl)
      · exact Or.inl hm
      · exact Or.inr (Or.inr hm)

/-- **A number that is drawn is not in use, and is a number of the type.** -/
theorem Fresh.draw (h : Fresh maximum s used) {n : ℕ} {s' : Supply}
    (hdraw : FreshSupply.draw maximum s = some (n, s')) :
    n ∉ used ∧ n ≤ maximum ∧ Fresh maximum s' (n :: used) := by
  have hle := h.le
  unfold FreshSupply.draw at hdraw
  split_ifs at hdraw with havailable hmax
  · obtain ⟨rfl, rfl⟩ := Prod.mk.inj (Option.some.inj hdraw)
    refine ⟨fun hmem => ?_, hle, ⟨hle, by simp⟩⟩
    have := h.above havailable _ hmem
    omega
  · obtain ⟨rfl, rfl⟩ := Prod.mk.inj (Option.some.inj hdraw)
    have hlt : s.next < maximum := by omega
    refine ⟨fun hmem => ?_, hle, ?_, ?_⟩
    · have := h.above havailable _ hmem
      omega
    · simp only [succ_of_lt _ hlt]
      omega
    · intro _ m hm
      simp only [succ_of_lt _ hlt]
      rcases List.mem_cons.mp hm with rfl | hm
      · omega
      · have := h.above havailable m hm
        omega

end FreshSupply
