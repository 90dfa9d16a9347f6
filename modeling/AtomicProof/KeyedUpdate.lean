/-
Updates at keys and positions.

A container that is written to at one place at a time: entries sorted by their keys, where a missing
key gets an entry of its own, or a list, which is padded up to a missing position.  An update is given
by a function of the old content.  Two updates of one place are one update, and updates of two
places may change their order; the latter holds of any container, sorted or not.

Main definitions:

* `alterEntry` — an update at a key;
* `alterAt` — an update at a position;
* `Commuting` — the updates of a family may change their order.

Main results:

* `alterEntry_comm`, `alterAt_comm` — **updates of different places commute**;
* `alterEntry_alterEntry`, `alterAt_alterAt` — updates of one place compose;
* `foldl_perm_of_commuting` — a run of updates that commute pair by pair may be reordered.
-/

import Mathlib.Data.List.Perm.Basic
import Mathlib.Data.List.Pairwise
import Mathlib.Order.Lattice
import Mathlib.Data.Nat.Notation
import Mathlib.Tactic.Common

set_option autoImplicit false

namespace AtomicProof

section KeyedUpdate

variable {κ V S T : Type*} [LinearOrder κ]

/-! ### Keys -/

/-- An update at a key of a container sorted by keys. -/
def alterEntry (key : κ) (f : Option V → V) : List (κ × V) → List (κ × V)
  | [] => [(key, f none)]
  | entry :: rest =>
      if key < entry.1 then (key, f none) :: entry :: rest
      else if key = entry.1 then (key, f (some entry.2)) :: rest
      else entry :: alterEntry key f rest

theorem alterEntry_cons_of_lt {key : κ} (f : Option V → V) {e : κ × V}
    (rest : List (κ × V)) (h : key < e.1) :
    alterEntry key f (e :: rest) = (key, f none) :: e :: rest :=
  if_pos h

theorem alterEntry_cons_self (key : κ) (f : Option V → V) (value : V) (rest : List (κ × V)) :
    alterEntry key f ((key, value) :: rest) = (key, f (some value)) :: rest := by
  rw [alterEntry, if_neg (lt_irrefl key), if_pos rfl]

theorem alterEntry_cons_of_gt {key : κ} (f : Option V → V) {e : κ × V}
    (rest : List (κ × V)) (h : e.1 < key) :
    alterEntry key f (e :: rest) = e :: alterEntry key f rest := by
  rw [alterEntry, if_neg h.not_gt, if_neg h.ne']

/-- Two updates of one key are one update. -/
theorem alterEntry_alterEntry (key : κ) (f g : Option V → V) (container : List (κ × V)) :
    alterEntry key f (alterEntry key g container) =
      alterEntry key (fun old => f (some (g old))) container := by
  induction container with
  | nil => exact alterEntry_cons_self key f (g none) []
  | cons entry rest ih =>
      rcases lt_trichotomy key entry.1 with hlt | heq | hgt
      · rw [alterEntry_cons_of_lt g rest hlt, alterEntry_cons_of_lt _ rest hlt,
          alterEntry_cons_self]
      · obtain ⟨k, value⟩ := entry
        obtain rfl : key = k := heq
        rw [alterEntry_cons_self, alterEntry_cons_self, alterEntry_cons_self]
      · rw [alterEntry_cons_of_gt g rest hgt, alterEntry_cons_of_gt _ rest hgt,
          alterEntry_cons_of_gt f _ hgt, ih]

theorem alterEntry_comm_of_lt {a b : κ} (h : a < b) (f g : Option V → V)
    (container : List (κ × V)) :
    alterEntry a f (alterEntry b g container) = alterEntry b g (alterEntry a f container) := by
  induction container with
  | nil =>
      rw [alterEntry, alterEntry, alterEntry_cons_of_lt f [] h, alterEntry_cons_of_gt g [] h,
        alterEntry]
  | cons entry rest ih =>
      obtain ⟨k, value⟩ := entry
      rcases lt_trichotomy a k with ha | rfl | ha
      -- the first update goes in front of the entry, wherever the second goes
      · rw [alterEntry_cons_of_lt (e := (k, value)) f rest ha,
          alterEntry_cons_of_gt (e := (a, f none)) g _ h]
        rcases lt_trichotomy b k with hb | rfl | hb
        · rw [alterEntry_cons_of_lt (e := (k, value)) g rest hb,
            alterEntry_cons_of_lt (e := (b, g none)) f _ h]
        · rw [alterEntry_cons_self, alterEntry_cons_of_lt (e := (b, g (some value))) f _ h]
        · rw [alterEntry_cons_of_gt (e := (k, value)) g rest hb,
            alterEntry_cons_of_lt (e := (k, value)) f _ ha]
      · rw [alterEntry_cons_of_gt (e := (a, value)) g rest h, alterEntry_cons_self,
          alterEntry_cons_self, alterEntry_cons_of_gt (e := (a, f (some value))) g rest h]
      · have hb := ha.trans h
        rw [alterEntry_cons_of_gt (e := (k, value)) g rest hb,
          alterEntry_cons_of_gt (e := (k, value)) f _ ha,
          alterEntry_cons_of_gt (e := (k, value)) f rest ha,
          alterEntry_cons_of_gt (e := (k, value)) g _ hb, ih]

/-- **Updates of different keys commute.** -/
theorem alterEntry_comm {a b : κ} (h : a ≠ b) (f g : Option V → V) (container : List (κ × V)) :
    alterEntry a f (alterEntry b g container) = alterEntry b g (alterEntry a f container) := by
  rcases lt_or_gt_of_ne h with hlt | hgt
  · exact alterEntry_comm_of_lt hlt f g container
  · exact (alterEntry_comm_of_lt hgt g f container).symm

theorem alterEntry_of_forall_lt {key : κ} (f : Option V → V) {container : List (κ × V)}
    (h : ∀ entry ∈ container, entry.1 < key) :
    alterEntry key f container = container ++ [(key, f none)] := by
  induction container with
  | nil => rfl
  | cons entry rest ih =>
      rw [List.forall_mem_cons] at h
      rw [alterEntry_cons_of_gt f rest h.1, ih h.2, List.cons_append]

/-! ### Positions -/

/-- An update at a position of a list, padded up to there. -/
def alterAt (pad : V) : ℕ → (V → V) → List V → List V
  | 0, f, [] => [f pad]
  | 0, f, x :: xs => f x :: xs
  | i + 1, f, [] => pad :: alterAt pad i f []
  | i + 1, f, x :: xs => x :: alterAt pad i f xs

theorem alterAt_alterAt (pad : V) (i : ℕ) (f g : V → V) (xs : List V) :
    alterAt pad i f (alterAt pad i g xs) = alterAt pad i (fun x => f (g x)) xs := by
  induction i generalizing xs with
  | zero => cases xs <;> rfl
  | succ i ih =>
      cases xs with
      | nil => exact congrArg (pad :: ·) (ih [])
      | cons x xs => exact congrArg (x :: ·) (ih xs)

/-- **Updates of different positions commute.** -/
theorem alterAt_comm (pad : V) {i j : ℕ} (h : i ≠ j) (f g : V → V) (xs : List V) :
    alterAt pad i f (alterAt pad j g xs) = alterAt pad j g (alterAt pad i f xs) := by
  induction i generalizing j xs with
  | zero =>
      obtain ⟨j, rfl⟩ := Nat.exists_eq_succ_of_ne_zero h.symm
      cases xs <;> rfl
  | succ i ih =>
      cases j with
      | zero => cases xs <;> rfl
      | succ j =>
          have hne : i ≠ j := fun heq => h (congrArg _ heq)
          cases xs with
          | nil => exact congrArg (pad :: ·) (ih hne [])
          | cons x xs => exact congrArg (x :: ·) (ih hne xs)

theorem alterAt_length (pad : V) (f : V → V) (xs : List V) :
    alterAt pad xs.length f xs = xs ++ [f pad] := by
  induction xs with
  | nil => rfl
  | cons x xs ih => exact congrArg (x :: ·) ih

/-! ### Runs of updates -/

def Commuting (step : S → T → S) (a b : T) : Prop :=
  ∀ state, step (step state a) b = step (step state b) a

theorem Commuting.symm {step : S → T → S} {a b : T} (h : Commuting step a b) :
    Commuting step b a := fun state => (h state).symm

/-- **A run of updates that commute pair by pair may be reordered.** -/
theorem foldl_perm_of_commuting {step : S → T → S} {xs ys : List T} (hperm : xs.Perm ys)
    (hcomm : xs.Pairwise (Commuting step)) (state : S) :
    xs.foldl step state = ys.foldl step state := by
  refine hperm.foldl_eq' ?_ state
  intro a ha b hb state
  have hrefl : ∀ x ∈ xs, Commuting step x x := fun _ _ _ => rfl
  have hsymm : Std.Symm (Commuting step) := ⟨fun _ _ h => Commuting.symm h⟩
  exact hcomm.forall_of_forall hrefl ha hb state

end KeyedUpdate

end AtomicProof
