/-
Ordered maps that are filled from a list.

A loop over a list that puts every entry under a key it computes does, at each key, what a loop over
the entries with that key does.  The loops that copy a map, move its keys or merge the values that
meet are all of this kind, and what they leave at a key can be read off one at a time.

Main definitions:

* `OrderedMap.fill` — the loop.

Main results:

* `OrderedMap.getElem?_fill` — **what the loop leaves at a key**;
* `OrderedMap.filter_toList` — the entries of a map with a given key;
* `OrderedMap.getElem?_fill_keys` — the loop over a map that keeps the keys.
-/

import Std.Data.ExtTreeMap
import Mathlib.Data.List.Basic

set_option autoImplicit false

namespace OrderedMap

section Fill

variable {ε κ β : Type} [Ord κ] [Std.TransOrd κ]

/-- Every entry with a key goes there, where it meets what is there already. -/
def fill (key : ε → Option κ) (step : Option β → ε → β) (entries : List ε)
    (start : Std.ExtTreeMap κ β) : Std.ExtTreeMap κ β :=
  entries.foldl (fun (map : Std.ExtTreeMap κ β) entry =>
    match key entry with
    | some k => map.insert k (step map[k]? entry)
    | none => map) start

/-- What the entries of a key make of what was there. -/
def meet (step : Option β → ε → β) (entries : List ε) (start : Option β) : Option β :=
  entries.foldl (fun found entry => some (step found entry)) start

@[simp] theorem meet_nil (step : Option β → ε → β) (start : Option β) : meet step [] start = start :=
  rfl

@[simp] theorem meet_cons (step : Option β → ε → β) (entry : ε) (entries : List ε)
    (start : Option β) :
    meet step (entry :: entries) start = meet step entries (some (step start entry)) := rfl

/-- **What the loop leaves at a key.** -/
theorem getElem?_fill [Std.LawfulEqOrd κ] [DecidableEq κ] (key : ε → Option κ)
    (step : Option β → ε → β) (entries : List ε) (start : Std.ExtTreeMap κ β) (k : κ) :
    (fill key step entries start)[k]? =
      meet step (entries.filter fun entry => key entry = some k) start[k]? := by
  induction entries generalizing start with
  | nil => rfl
  | cons entry entries ih =>
      have hstep : fill key step (entry :: entries) start =
          fill key step entries (match key entry with
            | some k => start.insert k (step start[k]? entry)
            | none => start) := rfl
      rw [hstep, ih]
      cases hkey : key entry with
      | none =>
          rw [List.filter_cons_of_neg (by simp [hkey])]
      | some other =>
          by_cases hother : other = k
          · subst hother
            rw [List.filter_cons_of_pos (by simp [hkey]), meet_cons,
              Std.ExtTreeMap.getElem?_insert_self]
          · have hskip : ¬ compare other k = .eq := by
              rwa [Std.LawfulEqCmp.compare_eq_iff_eq]
            rw [List.filter_cons_of_neg (by simp [hkey, hother]), Std.ExtTreeMap.getElem?_insert,
              if_neg hskip]

end Fill

section Entries

variable {κ α β : Type} [Ord κ] [Std.TransOrd κ] [Std.LawfulEqOrd κ] [DecidableEq κ]

/-- The entries of a map with a given key. -/
theorem filter_toList (map : Std.ExtTreeMap κ α) (k : κ) :
    map.toList.filter (fun entry => entry.1 = k) = map[k]?.toList.map (k, ·) := by
  have hone : ∀ entries : List (κ × α), entries.Pairwise (fun a b => ¬ compare a.1 b.1 = .eq) →
      ∀ v, (k, v) ∈ entries → entries.filter (fun entry => entry.1 = k) = [(k, v)] := by
    intro entries hdistinct v hmem
    induction entries with
    | nil => exact absurd hmem (by simp)
    | cons entry entries ih =>
        rw [List.pairwise_cons] at hdistinct
        have hothers : ∀ other ∈ entries, entry.1 ≠ other.1 := by
          intro other hother heq
          exact hdistinct.1 other hother (Std.LawfulEqCmp.compare_eq_iff_eq.mpr heq)
        rcases List.mem_cons.mp hmem with rfl | hmem
        · rw [List.filter_cons_of_pos (by simp), List.filter_eq_nil_iff.mpr]
          intro other hother
          simpa using (hothers other hother).symm
        · rw [List.filter_cons_of_neg (by simpa using hothers _ hmem), ih hdistinct.2 hmem]
  cases hget : map[k]? with
  | none =>
      rw [Option.toList_none, List.map_nil, List.filter_eq_nil_iff]
      rintro ⟨key, v⟩ hmem hkey
      obtain rfl : key = k := by simpa using hkey
      rw [Std.ExtTreeMap.mem_toList_iff_getElem?_eq_some, hget] at hmem
      exact absurd hmem (by simp)
  | some v =>
      rw [hone _ map.distinct_keys_toList v
        (Std.ExtTreeMap.mem_toList_iff_getElem?_eq_some.mpr hget)]
      rfl

/-- The loop over a map that puts every entry that is kept under its own key. -/
theorem getElem?_fill_keys (keep : κ → α → Bool) (step : Option β → κ × α → β)
    (map : Std.ExtTreeMap κ α) (start : Std.ExtTreeMap κ β) (k : κ) :
    (fill (fun entry => if keep entry.1 entry.2 then some entry.1 else none) step map.toList
        start)[k]? =
      match map[k]?.filter (keep k) with
      | some v => some (step start[k]? (k, v))
      | none => start[k]? := by
  have hfilter : (map.toList.filter fun entry =>
      (if keep entry.1 entry.2 then some entry.1 else none) = some k) =
      (map.toList.filter fun entry => entry.1 = k).filter fun entry => keep entry.1 entry.2 := by
    rw [List.filter_filter]
    refine List.filter_congr ?_
    intro entry _
    by_cases hkeep : keep entry.1 entry.2 = true <;> simp [hkeep]
  rw [getElem?_fill, hfilter, filter_toList]
  cases map[k]? with
  | none => rfl
  | some v =>
      by_cases hkeep : keep k v = true <;> simp [hkeep, Option.filter]

end Entries

end OrderedMap

/-! ### Loops that may stop -/

theorem List.mapM_eq_some_map {α β : Type} {f : α → Option β} {g : α → β} {list : List α}
    (h : ∀ a ∈ list, f a = some (g a)) : list.mapM f = some (list.map g) := by
  induction list with
  | nil => rfl
  | cons a list ih =>
      rw [List.mapM_cons, h a List.mem_cons_self, ih fun b hb => h b (List.mem_cons_of_mem _ hb)]
      rfl
