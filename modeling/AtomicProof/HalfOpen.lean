/-
Sets of places as lists of half-open intervals.

A list of intervals is normal when no interval is empty and every two are ordered with a gap between
them.  A finite set of places then has exactly one normal list of intervals, so two ways of
computing one agree as soon as the same places are in them.

Main definitions:

* `HalfOpen.Interval`, `HalfOpen.Covers` — intervals, and the places of a list of them;
* `HalfOpen.Normal` — the normal lists;
* `HalfOpen.normalize` — the normal list of the places of any list of intervals;
* `HalfOpen.ofPlaces` — the normal list of a list of places.

Main results:

* `HalfOpen.Normal.ext` — **normal lists with the same places are equal**;
* `HalfOpen.normalize_spec`, `HalfOpen.ofPlaces_spec` — what the two functions compute.
-/

import Mathlib.Data.List.Sort
import Mathlib.Data.List.Dedup

set_option autoImplicit false

namespace HalfOpen

/-! ### Intervals -/

/-- The places from `lower` on, below `upper`. -/
structure Interval where
  lower : ℕ
  upper : ℕ
  deriving DecidableEq, Repr

def Interval.Contains (interval : Interval) (place : ℕ) : Prop :=
  interval.lower ≤ place ∧ place < interval.upper

instance (interval : Interval) (place : ℕ) : Decidable (interval.Contains place) :=
  inferInstanceAs (Decidable (_ ∧ _))

def Covers (intervals : List Interval) (place : ℕ) : Prop :=
  ∃ interval ∈ intervals, interval.Contains place

instance (intervals : List Interval) (place : ℕ) : Decidable (Covers intervals place) :=
  inferInstanceAs (Decidable (∃ interval ∈ intervals, _))

/-- No interval is empty, and there is a gap between every two. -/
structure Normal (intervals : List Interval) : Prop where
  nonempty : ∀ interval ∈ intervals, interval.lower < interval.upper
  gaps : intervals.Pairwise fun a b => a.upper < b.lower

section Normal

variable {interval : Interval} {intervals rest : List Interval} {place : ℕ}

@[simp] theorem not_covers_nil : ¬ Covers [] place := by simp [Covers]

@[simp] theorem covers_cons :
    Covers (interval :: rest) place ↔ interval.Contains place ∨ Covers rest place := by
  simp [Covers]

theorem normal_nil : Normal [] := ⟨by simp, .nil⟩

theorem normal_cons_iff :
    Normal (interval :: rest) ↔ interval.lower < interval.upper ∧
      (∀ other ∈ rest, interval.upper < other.lower) ∧ Normal rest := by
  constructor
  · intro h
    exact ⟨h.nonempty _ List.mem_cons_self, (List.pairwise_cons.mp h.gaps).1,
      fun other hother => h.nonempty other (List.mem_cons_of_mem _ hother),
      (List.pairwise_cons.mp h.gaps).2⟩
  · rintro ⟨hlt, hgap, hrest⟩
    refine ⟨?_, List.pairwise_cons.mpr ⟨hgap, hrest.gaps⟩⟩
    intro other hother
    rcases List.mem_cons.mp hother with rfl | hother
    · exact hlt
    · exact hrest.nonempty other hother

theorem Normal.lt_of_covers (h : Normal (interval :: rest)) (hplace : Covers rest place) :
    interval.upper < place := by
  obtain ⟨other, hother, hcontains⟩ := hplace
  have hgap := (normal_cons_iff.mp h).2.1 other hother
  exact lt_of_lt_of_le hgap hcontains.1

theorem Normal.covers_lower (h : Normal (interval :: rest)) :
    Covers (interval :: rest) interval.lower :=
  covers_cons.mpr (Or.inl ⟨le_refl _, (normal_cons_iff.mp h).1⟩)

theorem Normal.not_covers_upper (h : Normal (interval :: rest)) :
    ¬ Covers (interval :: rest) interval.upper := by
  rw [covers_cons]
  rintro (hcontains | hrest)
  · exact absurd hcontains.2 (lt_irrefl _)
  · exact absurd (h.lt_of_covers hrest) (lt_irrefl _)

theorem Normal.lower_le (h : Normal (interval :: rest)) (hplace : Covers (interval :: rest) place) :
    interval.lower ≤ place := by
  rcases covers_cons.mp hplace with hcontains | hrest
  · exact hcontains.1
  · have hlt := (normal_cons_iff.mp h).1
    have := h.lt_of_covers hrest
    omega

/-- **Normal lists with the same places are equal.** -/
theorem Normal.ext {others : List Interval} (h : Normal intervals) (h' : Normal others)
    (hsame : ∀ place, Covers intervals place ↔ Covers others place) : intervals = others := by
  induction intervals generalizing others with
  | nil =>
      cases others with
      | nil => rfl
      | cons other rest' =>
          exact absurd ((hsame _).mpr h'.covers_lower) not_covers_nil
  | cons interval rest ih =>
      cases others with
      | nil => exact absurd ((hsame _).mp h.covers_lower) not_covers_nil
      | cons other rest' =>
          have hlower : interval.lower = other.lower := by
            have hle := h.lower_le ((hsame _).mpr h'.covers_lower)
            have hge := h'.lower_le ((hsame _).mp h.covers_lower)
            omega
          have hlt := (normal_cons_iff.mp h).1
          have hlt' := (normal_cons_iff.mp h').1
          have hupper : interval.upper = other.upper := by
            -- the end of the shorter one would be a place of the longer one
            rcases lt_trichotomy interval.upper other.upper with hless | hequal | hmore
            · have hin : Covers (other :: rest') interval.upper :=
                covers_cons.mpr (Or.inl ⟨by omega, hless⟩)
              exact absurd ((hsame _).mpr hin) h.not_covers_upper
            · exact hequal
            · have hin : Covers (interval :: rest) other.upper :=
                covers_cons.mpr (Or.inl ⟨by omega, hmore⟩)
              exact absurd ((hsame _).mp hin) h'.not_covers_upper
          obtain rfl : interval = other := by
            cases interval
            cases other
            simp only at hlower hupper
            rw [hlower, hupper]
          rw [ih (normal_cons_iff.mp h).2.2 (normal_cons_iff.mp h').2.2]
          intro place
          have hall := hsame place
          rw [covers_cons, covers_cons] at hall
          constructor
          · intro hplace
            have hbehind := h.lt_of_covers hplace
            rcases hall.mp (Or.inr hplace) with hcontains | hrest
            · exact absurd hcontains.2 (by omega)
            · exact hrest
          · intro hplace
            have hbehind := h'.lt_of_covers hplace
            rcases hall.mpr (Or.inr hplace) with hcontains | hrest
            · exact absurd hcontains.2 (by omega)
            · exact hrest

end Normal

/-! ### Normalization -/

/-- Intervals that begin in order are joined to the one that is open where they touch it. -/
def joinFrom (current : Interval) : List Interval → List Interval
  | [] => [current]
  | interval :: rest =>
      if current.upper < interval.lower then current :: joinFrom interval rest
      else joinFrom ⟨current.lower, max current.upper interval.upper⟩ rest

/-- The joined intervals of a list in order. -/
def join : List Interval → List Interval
  | [] => []
  | interval :: rest => joinFrom interval rest

/-- The order of intervals by their beginning, then by their end. -/
def le (a b : Interval) : Prop := a.lower < b.lower ∨ a.lower = b.lower ∧ a.upper ≤ b.upper

instance : DecidableRel le := fun _ _ => inferInstanceAs (Decidable (_ ∨ _))

instance : Std.Total le := ⟨fun a b => by unfold le; omega⟩

instance : IsTrans Interval le := ⟨fun a b c => by unfold le; omega⟩

/-- The normal list of intervals with the same places. -/
def normalize (intervals : List Interval) : List Interval :=
  join ((intervals.filter fun interval => interval.lower < interval.upper).insertionSort le)

theorem joinFrom_spec {current : Interval} {rest : List Interval}
    (hopen : current.lower < current.upper) (hrest : ∀ interval ∈ rest, interval.lower < interval.upper)
    (hsorted : (current :: rest).Pairwise le) :
    Normal (joinFrom current rest) ∧ (∀ interval ∈ joinFrom current rest, current.lower ≤ interval.lower) ∧
      ∀ place, Covers (joinFrom current rest) place ↔ current.Contains place ∨ Covers rest place := by
  induction rest generalizing current with
  | nil =>
      refine ⟨normal_cons_iff.mpr ⟨hopen, by simp, normal_nil⟩, by simp [joinFrom], ?_⟩
      intro place
      simp [joinFrom]
  | cons interval rest ih =>
      have hinterval := hrest interval List.mem_cons_self
      have hrest' : ∀ other ∈ rest, other.lower < other.upper := fun other hother =>
        hrest other (List.mem_cons_of_mem _ hother)
      rw [List.pairwise_cons, List.pairwise_cons] at hsorted
      obtain ⟨hfirst, hsecond, hpairs⟩ := hsorted
      have hle : current.lower ≤ interval.lower := by
        rcases hfirst interval List.mem_cons_self with hlt | ⟨heq, -⟩ <;> omega
      rw [joinFrom]
      split_ifs with hgap
      · obtain ⟨hnormal, hlower, hcovers⟩ :=
          ih hinterval hrest' (List.pairwise_cons.mpr ⟨hsecond, hpairs⟩)
        refine ⟨normal_cons_iff.mpr ⟨hopen, ?_, hnormal⟩, ?_, ?_⟩
        · intro other hother
          exact lt_of_lt_of_le hgap (hlower other hother)
        · intro other hother
          rcases List.mem_cons.mp hother with rfl | hother
          · exact le_refl _
          · exact hle.trans (hlower other hother)
        · intro place
          rw [covers_cons, hcovers, covers_cons]
      · have hopen' : current.lower < max current.upper interval.upper :=
          lt_of_lt_of_le hopen (le_max_left _ _)
        have hsorted' : (Interval.mk current.lower (max current.upper interval.upper) :: rest).Pairwise
            le := by
          refine List.pairwise_cons.mpr ⟨?_, hpairs⟩
          intro other hother
          have h₁ := hfirst other (List.mem_cons_of_mem _ hother)
          have h₂ := hsecond other hother
          unfold le at h₁ h₂ ⊢
          simp only
          omega
        obtain ⟨hnormal, hlower, hcovers⟩ := ih hopen' hrest' hsorted'
        refine ⟨hnormal, hlower, ?_⟩
        intro place
        have hjoined : (Interval.mk current.lower (max current.upper interval.upper)).Contains place ↔
            current.Contains place ∨ interval.Contains place := by
          unfold Interval.Contains
          simp only
          omega
        rw [hcovers, covers_cons, hjoined, or_assoc]

/-- **The normal list of the places of any list of intervals.** -/
theorem normalize_spec (intervals : List Interval) :
    Normal (normalize intervals) ∧
      ∀ place, Covers (normalize intervals) place ↔ Covers intervals place := by
  have hsorted := List.pairwise_insertionSort le
    (intervals.filter fun interval => interval.lower < interval.upper)
  have hmem : ∀ interval, interval ∈ (intervals.filter fun interval =>
      interval.lower < interval.upper).insertionSort le ↔
        interval ∈ intervals ∧ interval.lower < interval.upper := by
    intro interval
    rw [List.mem_insertionSort, List.mem_filter, decide_eq_true_eq]
  have hcovers : ∀ place, Covers ((intervals.filter fun interval =>
      interval.lower < interval.upper).insertionSort le) place ↔ Covers intervals place := by
    intro place
    constructor
    · rintro ⟨interval, hinterval, hcontains⟩
      exact ⟨interval, ((hmem interval).mp hinterval).1, hcontains⟩
    · rintro ⟨interval, hinterval, hcontains⟩
      have hlt : interval.lower < interval.upper := lt_of_le_of_lt hcontains.1 hcontains.2
      exact ⟨interval, (hmem interval).mpr ⟨hinterval, hlt⟩, hcontains⟩
  rw [normalize]
  cases hlist : (intervals.filter fun interval => interval.lower < interval.upper).insertionSort le with
  | nil =>
      rw [hlist] at hcovers
      exact ⟨normal_nil, hcovers⟩
  | cons interval rest =>
      rw [hlist] at hcovers hmem hsorted
      have hinterval := ((hmem interval).mp List.mem_cons_self).2
      have hrest : ∀ other ∈ rest, other.lower < other.upper := fun other hother =>
        ((hmem other).mp (List.mem_cons_of_mem _ hother)).2
      obtain ⟨hnormal, -, hjoin⟩ := joinFrom_spec hinterval hrest hsorted
      refine ⟨hnormal, fun place => ?_⟩
      rw [← hcovers, covers_cons]
      exact hjoin place

theorem Normal.normalize_eq {intervals : List Interval} (h : Normal intervals) :
    normalize intervals = intervals :=
  Normal.ext (normalize_spec intervals).1 h (normalize_spec intervals).2

/-! ### Places -/

/-- Places in order are added to the interval that is open, or open another one. -/
def groupFrom (current : Interval) : List ℕ → List Interval
  | [] => [current]
  | place :: rest =>
      if current.upper < place then current :: groupFrom ⟨place, place + 1⟩ rest
      else if place = current.upper then groupFrom ⟨current.lower, place + 1⟩ rest
      else groupFrom current rest

def group : List ℕ → List Interval
  | [] => []
  | place :: rest => groupFrom ⟨place, place + 1⟩ rest

def ofPlaces (places : List ℕ) : List Interval := group (places.dedup.insertionSort (· ≤ ·))

theorem groupFrom_spec {current : Interval} {rest : List ℕ} (hopen : current.lower < current.upper)
    (hrest : ∀ place ∈ rest, current.upper ≤ place) (hsorted : rest.Pairwise (· < ·)) :
    Normal (groupFrom current rest) ∧
      (∀ interval ∈ groupFrom current rest, current.lower ≤ interval.lower) ∧
      ∀ place, Covers (groupFrom current rest) place ↔ current.Contains place ∨ place ∈ rest := by
  induction rest generalizing current with
  | nil =>
      refine ⟨normal_cons_iff.mpr ⟨hopen, by simp, normal_nil⟩, by simp [groupFrom], ?_⟩
      intro place
      simp [groupFrom]
  | cons next rest ih =>
      rw [List.pairwise_cons] at hsorted
      have hnext := hrest next List.mem_cons_self
      have hbehind : ∀ place ∈ rest, next + 1 ≤ place := fun place hplace => hsorted.1 place hplace
      rw [groupFrom]
      split_ifs with hgap htouch
      · have hsingle : (Interval.mk next (next + 1)).lower < (Interval.mk next (next + 1)).upper :=
          Nat.lt_succ_self next
        obtain ⟨hnormal, hlower, hcovers⟩ := ih hsingle hbehind hsorted.2
        refine ⟨normal_cons_iff.mpr ⟨hopen, ?_, hnormal⟩, ?_, ?_⟩
        · intro other hother
          exact lt_of_lt_of_le hgap (hlower other hother)
        · intro other hother
          rcases List.mem_cons.mp hother with rfl | hother
          · exact le_refl _
          · have := hlower other hother
            simp only at this
            omega
        · intro place
          rw [covers_cons, hcovers, List.mem_cons]
          have hplace : (Interval.mk next (next + 1)).Contains place ↔ place = next := by
            unfold Interval.Contains
            simp only
            omega
          rw [hplace]
      · have hopen' : (Interval.mk current.lower (next + 1)).lower <
            (Interval.mk current.lower (next + 1)).upper := by
          simp only
          omega
        obtain ⟨hnormal, hlower, hcovers⟩ := ih hopen' hbehind hsorted.2
        refine ⟨hnormal, hlower, ?_⟩
        intro place
        have hplace : (Interval.mk current.lower (next + 1)).Contains place ↔
            current.Contains place ∨ place = next := by
          unfold Interval.Contains
          simp only
          omega
        rw [hcovers, hplace, or_assoc, List.mem_cons]
      · exact absurd (le_antisymm (not_lt.mp hgap) hnext) htouch

/-- **The normal list of a list of places.** -/
theorem ofPlaces_spec (places : List ℕ) :
    Normal (ofPlaces places) ∧ ∀ place, Covers (ofPlaces places) place ↔ place ∈ places := by
  have hmem : ∀ place, place ∈ places.dedup.insertionSort (· ≤ ·) ↔ place ∈ places := by
    intro place
    rw [List.mem_insertionSort, List.mem_dedup]
  have hsorted : (places.dedup.insertionSort (· ≤ ·)).Pairwise (· < ·) := by
    have hle := List.pairwise_insertionSort (· ≤ ·) places.dedup
    have hnodup : (places.dedup.insertionSort (· ≤ ·)).Nodup :=
      (List.perm_insertionSort _ _).nodup_iff.mpr places.nodup_dedup
    exact (hle.and hnodup).imp fun h => lt_of_le_of_ne h.1 h.2
  rw [ofPlaces]
  cases hlist : places.dedup.insertionSort (· ≤ ·) with
  | nil =>
      rw [hlist] at hmem
      refine ⟨normal_nil, fun place => ?_⟩
      rw [← hmem]
      simp [group]
  | cons first rest =>
      rw [hlist] at hmem hsorted
      rw [List.pairwise_cons] at hsorted
      have hsingle : (Interval.mk first (first + 1)).lower < (Interval.mk first (first + 1)).upper :=
        Nat.lt_succ_self first
      obtain ⟨hnormal, -, hcovers⟩ :=
        groupFrom_spec hsingle (fun place hplace => hsorted.1 place hplace) hsorted.2
      refine ⟨hnormal, fun place => ?_⟩
      have hplace : (Interval.mk first (first + 1)).Contains place ↔ place = first := by
        unfold Interval.Contains
        simp only
        omega
      rw [group, hcovers, hplace, ← hmem, List.mem_cons]

end HalfOpen
