/-
Rewriting a list piece by piece.

A scan that rewrites a list reads pieces of it one after the other and writes a piece for each.  A
segment is a piece that was read, the piece that was written for it, and for every entry read the place
of the entry written that stands for it, if one does.  Segments put together are a segment, and what
holds of the pieces holds of the whole.

Main definitions:

* `Segment`, `Segment.append`, `Segment.same` — a segment, two of them, one that changes nothing;
* `Segment.Ordered` — the places in the order of the entries read are all entries written;
* `Segment.Keeps` — entries of a kind are kept, up to a relation.

Main results:

* `Segment.Ordered.append`, `Segment.Keeps.append` — what is put together;
* `Segment.Ordered.lt`, `Segment.Ordered.onto` — **the places are a strictly increasing bijection onto
  the entries written**;
* `Segment.append_same_place` — entries behind what is rewritten move together.
-/

import Mathlib.Data.List.Basic
import Mathlib.Data.List.Range

set_option autoImplicit false

namespace AtomicProof

/-- A piece of a list that was read, what was written for it, and the places of its entries. -/
structure Segment (α : Type*) where
  consumed : List α
  emitted : List α
  places : List (Option ℕ)

namespace Segment

variable {α : Type*} {s t : Segment α}

def append (s t : Segment α) : Segment α where
  consumed := s.consumed ++ t.consumed
  emitted := s.emitted ++ t.emitted
  places := s.places ++ t.places.map (Option.map (s.emitted.length + ·))

def same (entries : List α) : Segment α where
  consumed := entries
  emitted := entries
  places := (List.range entries.length).map some

/-- The places, in the order of the entries read, are all places of the entries written. -/
structure Ordered (s : Segment α) : Prop where
  length : s.places.length = s.consumed.length
  places : s.places.filterMap id = List.range s.emitted.length

/-- The entries of a kind are kept, up to a relation. -/
def Keeps (kind : α → Prop) (R : α → α → Prop) (s : Segment α) : Prop :=
  ∀ (i : ℕ) x, s.consumed[i]? = some x → kind x →
    ∃ (n : ℕ) (y : α), s.places[i]? = some (some n) ∧ s.emitted[n]? = some y ∧ R x y

/-! ### Segments that change nothing -/

theorem same_ordered (entries : List α) : (same entries).Ordered where
  length := by simp [same]
  places := by simp [same, List.filterMap_map]

theorem same_keeps {kind : α → Prop} {R : α → α → Prop} (hR : ∀ x, R x x) (entries : List α) :
    (same entries).Keeps kind R := by
  intro i x hx _
  have hi : i < entries.length := (List.getElem?_eq_some_iff.1 hx).1
  refine ⟨i, x, ?_, hx, hR x⟩
  have hplace : ((List.range entries.length).map some)[i]? = some (some i) := by
    rw [List.getElem?_map, List.getElem?_range hi]
    rfl
  exact hplace

theorem append_same_same (xs ys : List α) : (same xs).append (same ys) = same (xs ++ ys) := by
  have hmap : ((List.range ys.length).map some).map (Option.map (xs.length + ·)) =
      ((List.range ys.length).map (xs.length + ·)).map some := by
    rw [List.map_map, List.map_map]
    rfl
  simp only [append, same, hmap, ← List.map_append, List.length_append, List.range_add]

/-! ### Segments put together -/

theorem append_assoc (s t u : Segment α) : (s.append t).append u = s.append (t.append u) := by
  have hmap : ∀ places : List (Option ℕ),
      places.map (Option.map (s.emitted.length + t.emitted.length + ·)) =
        (places.map (Option.map (t.emitted.length + ·))).map (Option.map (s.emitted.length + ·)) := by
    intro places
    rw [List.map_map]
    refine List.map_congr_left fun place _ => ?_
    cases place with
    | none => rfl
    | some n => exact congrArg some (Nat.add_assoc _ _ _)
  simp only [append, List.append_assoc, List.map_append, List.length_append, hmap]

@[simp] theorem append_same_nil (s : Segment α) : s.append (same []) = s := by
  simp [append, same]

theorem Ordered.append (hs : s.Ordered) (ht : t.Ordered) : (s.append t).Ordered where
  length := by
    simp only [Segment.append, List.length_append, List.length_map, hs.length, ht.length]
  places := by
    have hshift : (t.places.map (Option.map (s.emitted.length + ·))).filterMap id =
        (t.places.filterMap id).map (s.emitted.length + ·) := by
      rw [List.filterMap_map, List.map_filterMap]
      rfl
    rw [Segment.append, List.filterMap_append, hs.places, hshift, ht.places, List.length_append,
      List.range_add]

theorem Keeps.append {kind : α → Prop} {R : α → α → Prop} (hordered : s.Ordered)
    (hs : s.Keeps kind R) (ht : t.Keeps kind R) : (s.append t).Keeps kind R := by
  intro i x hx hkind
  by_cases hi : i < s.consumed.length
  -- an entry of the first piece keeps its place
  · have hx' : s.consumed[i]? = some x := by
      rwa [Segment.append, List.getElem?_append_left hi] at hx
    obtain ⟨n, y, hplace, hy, hR⟩ := hs i x hx' hkind
    refine ⟨n, y, ?_, ?_, hR⟩
    · rw [Segment.append, List.getElem?_append_left (hordered.length ▸ hi), hplace]
    · rw [Segment.append, List.getElem?_append_left (List.getElem?_eq_some_iff.1 hy).1, hy]
  · rw [not_lt] at hi
    have hx' : t.consumed[i - s.consumed.length]? = some x := by
      rwa [Segment.append, List.getElem?_append_right hi] at hx
    obtain ⟨n, y, hplace, hy, hR⟩ := ht _ x hx' hkind
    refine ⟨s.emitted.length + n, y, ?_, ?_, hR⟩
    · rw [Segment.append, List.getElem?_append_right (hordered.length ▸ hi), List.getElem?_map,
        hordered.length, hplace]
      rfl
    · rw [Segment.append, List.getElem?_append_right (Nat.le_add_right _ _), Nat.add_sub_cancel_left,
        hy]

/-! ### The map of places -/

/-- **The places increase.** -/
theorem Ordered.lt (h : s.Ordered) {i j m n : ℕ} (hij : i < j) (hi : s.places[i]? = some (some m))
    (hj : s.places[j]? = some (some n)) : m < n := by
  have hsorted : (s.places.filterMap id).Pairwise (· < ·) := by
    rw [h.places]
    exact List.pairwise_lt_range
  rw [List.pairwise_filterMap] at hsorted
  obtain ⟨hi', hmi⟩ := List.getElem?_eq_some_iff.1 hi
  obtain ⟨hj', hnj⟩ := List.getElem?_eq_some_iff.1 hj
  exact List.pairwise_iff_getElem.1 hsorted i j hi' hj' hij m hmi n hnj

/-- **The places are those of the entries written.** -/
theorem Ordered.onto (h : s.Ordered) (n : ℕ) :
    n < s.emitted.length ↔ ∃ i : ℕ, s.places[i]? = some (some n) := by
  rw [← List.mem_range, ← h.places, List.mem_filterMap]
  constructor
  · rintro ⟨place, hmem, hplace⟩
    obtain ⟨i, hi⟩ := List.mem_iff_getElem?.1 hmem
    exact ⟨i, hi.trans (congrArg some hplace)⟩
  · rintro ⟨i, hi⟩
    exact ⟨some n, List.mem_of_getElem? hi, rfl⟩

theorem Ordered.emitted_le (h : s.Ordered) : s.emitted.length ≤ s.consumed.length := by
  have hlength := List.length_filterMap_le id s.places
  rwa [h.places, List.length_range, h.length] at hlength

/-- The entries behind what is rewritten are the same, and all move by the number of entries that are
gone. -/
theorem append_same_place (hs : s.Ordered) (rest : List α) {i : ℕ} (hi : s.consumed.length ≤ i)
    (hlt : i < s.consumed.length + rest.length) :
    (s.append (same rest)).places[i]? =
        some (some (i - (s.consumed.length - s.emitted.length))) ∧
      (s.append (same rest)).emitted[i - (s.consumed.length - s.emitted.length)]? =
        (s.append (same rest)).consumed[i]? := by
  have hle := hs.emitted_le
  have hplace : i - (s.consumed.length - s.emitted.length) =
      s.emitted.length + (i - s.consumed.length) := by omega
  constructor
  · have hrange : ((List.range rest.length).map some)[i - s.consumed.length]? =
        some (some (i - s.consumed.length)) := by
      rw [List.getElem?_map, List.getElem?_range (by omega)]
      rfl
    rw [append, List.getElem?_append_right (hs.length ▸ hi), List.getElem?_map, hs.length, same,
      hrange, hplace]
    rfl
  · rw [append, hplace, List.getElem?_append_right (Nat.le_add_right _ _), Nat.add_sub_cancel_left,
      List.getElem?_append_right hi]
    rfl

end Segment

end AtomicProof
