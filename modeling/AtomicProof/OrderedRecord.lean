/-
Records in a sorted container.

A record is built by assigning fields one after the other to a container that keeps them sorted by key
and holds one value for each key.  Written out, the container gives the bytes of its fields in the order
of the keys, and the declaration gives those of all fields in its own order.  The two agree if the fields
with any bytes are declared in the order of their keys, and no field with bytes is assigned again.

Main definitions:

* `insertEntry` — an assignment;
* `collect` — all assignments of a record;
* `contents` — the bytes of entries, one after the other;
* `KeyOrdered` — the declared order is the order of the keys;
* `cut` — a row cut into the parts of its fields.

Main results:

* `sorted_collect` — a container is sorted;
* `contents_collect` — **a container of ordered fields is written in the declared order**;
* `width_eq_of_collect` — containers of the same widths that lose none are of the same fields;
* `cut_flatMap` — parts put together are cut again.
-/

import Mathlib.Algebra.BigOperators.Group.List.Basic
import Mathlib.Algebra.Order.BigOperators.Group.List
import Mathlib.Algebra.GroupWithZero.Nat
import Mathlib.Algebra.Order.Group.Nat
import Mathlib.Data.List.Forall2
import Mathlib.Data.List.Induction
import Mathlib.Data.List.Pairwise
import Mathlib.Data.List.Perm.Basic
import Mathlib.Order.Basic

set_option autoImplicit false

namespace AtomicProof

section OrderedRecord

variable {κ V W β : Type*} [LinearOrder κ]

def insertEntry (key : κ) (value : V) : List (κ × V) → List (κ × V)
  | [] => [(key, value)]
  | entry :: rest =>
      if key < entry.1 then (key, value) :: entry :: rest
      else if key = entry.1 then (key, value) :: rest
      else entry :: insertEntry key value rest

/-- All assignments, the first one first. -/
def collect (entries : List (κ × V)) : List (κ × V) :=
  entries.foldl (fun container entry => insertEntry entry.1 entry.2 container) []

/-- The bytes of entries, one after the other. -/
def contents (entries : List (κ × List β)) : List β := entries.flatMap (·.2)

/-! ### Containers -/

variable {key : κ} {value : V} {container entries : List (κ × V)} {entry : κ × V}
variable {names : List κ} {fields : List (κ × ℕ)}

theorem mem_insertEntry (h : entry ∈ insertEntry key value container) :
    entry = (key, value) ∨ entry ∈ container := by
  induction container with
  | nil => exact .inl (List.mem_singleton.1 h)
  | cons first rest ih =>
      rw [insertEntry] at h
      split_ifs at h with hlt heq
      · rcases List.mem_cons.1 h with h | h
        · exact .inl h
        · exact .inr h
      · rcases List.mem_cons.1 h with h | h
        · exact .inl h
        · exact .inr (List.mem_cons_of_mem _ h)
      · rcases List.mem_cons.1 h with h | h
        · exact .inr (h ▸ List.mem_cons_self)
        · rcases ih h with h | h
          · exact .inl h
          · exact .inr (List.mem_cons_of_mem _ h)

/-- Sorted by key, with one value for each. -/
def SortedByKey (container : List (κ × V)) : Prop := container.Pairwise (·.1 < ·.1)

theorem sorted_insertEntry (h : SortedByKey container) :
    SortedByKey (insertEntry key value container) := by
  induction container with
  | nil => exact List.pairwise_singleton _ _
  | cons first rest ih =>
      obtain ⟨hfirst, hrest⟩ := List.pairwise_cons.1 h
      rw [insertEntry]
      split_ifs with hlt heq
      · refine List.pairwise_cons.2 ⟨?_, h⟩
        intro other hother
        rcases List.mem_cons.1 hother with rfl | hother
        · exact hlt
        · exact hlt.trans (hfirst other hother)
      · refine List.pairwise_cons.2 ⟨?_, hrest⟩
        intro other hother
        rw [heq]
        exact hfirst other hother
      · refine List.pairwise_cons.2 ⟨?_, ih hrest⟩
        intro other hother
        rcases mem_insertEntry hother with rfl | hother
        · exact lt_of_le_of_ne (not_lt.1 hlt) (Ne.symm heq)
        · exact hfirst other hother

theorem collect_concat (entries : List (κ × V)) (entry : κ × V) :
    collect (entries ++ [entry]) = insertEntry entry.1 entry.2 (collect entries) := by
  rw [collect, List.foldl_append]
  rfl

/-- **A container is sorted.** -/
theorem sorted_collect (entries : List (κ × V)) : SortedByKey (collect entries) := by
  induction entries using List.reverseRecOn with
  | nil => exact List.Pairwise.nil
  | append_singleton entries entry ih =>
      rw [collect_concat]
      exact sorted_insertEntry ih

theorem eq_of_sorted (h : SortedByKey container) {a b : κ × V} (ha : a ∈ container)
    (hb : b ∈ container) (hkey : a.1 = b.1) : a = b := by
  induction container with
  | nil => exact absurd ha List.not_mem_nil
  | cons first rest ih =>
      obtain ⟨hfirst, hrest⟩ := List.pairwise_cons.1 h
      rcases List.mem_cons.1 ha with ha' | ha' <;> rcases List.mem_cons.1 hb with hb' | hb'
      · rw [ha', hb']
      · exact absurd (ha' ▸ hkey) (hfirst b hb').ne
      · exact absurd (hb' ▸ hkey) (hfirst a ha').ne'
      · exact ih hrest ha' hb'

theorem mem_of_mem_collect (h : entry ∈ collect entries) : entry ∈ entries := by
  induction entries using List.reverseRecOn with
  | nil => exact h
  | append_singleton entries last ih =>
      rw [collect_concat] at h
      rcases mem_insertEntry h with rfl | h
      · exact List.mem_append_right _ List.mem_cons_self
      · exact List.mem_append_left _ (ih h)

theorem insertEntry_perm (key : κ) (value : V) (h : ∀ entry ∈ container, entry.1 ≠ key) :
    (insertEntry key value container).Perm ((key, value) :: container) := by
  induction container with
  | nil => exact .refl _
  | cons first rest ih =>
      rw [insertEntry]
      split_ifs with hlt heq
      · exact .refl _
      · exact absurd heq.symm (h first List.mem_cons_self)
      · refine .trans (.cons _ (ih fun entry hentry => h entry (List.mem_cons_of_mem _ hentry))) ?_
        exact .swap _ _ _

/-- The value of a known key is replaced. -/
theorem insertEntry_of_mem (key : κ) (value : V) (hsorted : SortedByKey container) {old : V}
    (h : (key, old) ∈ container) :
    ∃ before after, container = before ++ (key, old) :: after ∧
      insertEntry key value container = before ++ (key, value) :: after := by
  induction container with
  | nil => exact absurd h List.not_mem_nil
  | cons first rest ih =>
      obtain ⟨hfirst, hrest⟩ := List.pairwise_cons.1 hsorted
      rw [insertEntry]
      rcases List.mem_cons.1 h with rfl | h
      · refine ⟨[], rest, rfl, ?_⟩
        rw [if_neg (lt_irrefl _), if_pos rfl]
        rfl
      · have hlt := hfirst (key, old) h
        obtain ⟨before, after, hcontainer, hinsert⟩ := ih hrest h
        refine ⟨first :: before, after, by rw [hcontainer]; rfl, ?_⟩
        rw [if_neg (not_lt.2 hlt.le), if_neg hlt.ne', hinsert]
        rfl

theorem map_insertEntry (f : κ → V → W) :
    (insertEntry key value container).map (fun entry => (entry.1, f entry.1 entry.2)) =
      insertEntry key (f key value) (container.map fun entry => (entry.1, f entry.1 entry.2)) := by
  induction container with
  | nil => rfl
  | cons first rest ih =>
      rw [insertEntry, List.map_cons, insertEntry]
      split_ifs
      · rfl
      · rfl
      · rw [List.map_cons, ih]

theorem map_collect (f : κ → V → W) (entries : List (κ × V)) :
    (collect entries).map (fun entry => (entry.1, f entry.1 entry.2)) =
      collect (entries.map fun entry => (entry.1, f entry.1 entry.2)) := by
  induction entries using List.reverseRecOn with
  | nil => rfl
  | append_singleton entries entry ih =>
      rw [collect_concat, map_insertEntry, ih, List.map_append]
      exact (collect_concat _ (entry.1, f entry.1 entry.2)).symm

/-- **What is not in the container was replaced by a later assignment to the same key.** -/
theorem collect_perm {R : κ × V → κ × V → Prop} (h : entries.Pairwise R) :
    ∃ lost, (collect entries ++ lost).Perm entries ∧
      ∀ entry ∈ lost, ∃ later, later.1 = entry.1 ∧ R entry later := by
  induction entries using List.reverseRecOn with
  | nil => exact ⟨[], .refl _, fun entry hentry => absurd hentry List.not_mem_nil⟩
  | append_singleton entries last ih =>
      obtain ⟨hentries, -, hlast⟩ := List.pairwise_append.1 h
      obtain ⟨lost, hperm, hlost⟩ := ih hentries
      rw [collect_concat]
      by_cases hmem : ∃ old, (last.1, old) ∈ collect entries
      -- the old value moves to the lost ones
      · obtain ⟨old, hmem⟩ := hmem
        obtain ⟨before, after, hcontainer, hinsert⟩ :=
          insertEntry_of_mem last.1 last.2 (sorted_collect entries) hmem
        refine ⟨(last.1, old) :: lost, ?_, ?_⟩
        · rw [hinsert]
          rw [hcontainer] at hperm
          refine .trans ?_ (hperm.append_right [last])
          simp only [List.append_assoc, List.cons_append]
          refine .append_left before ?_
          refine .trans (List.Perm.cons _ List.perm_middle) ?_
          refine .trans (List.Perm.swap _ _ _) (.cons _ ?_)
          rw [← List.append_assoc]
          exact (List.perm_append_singleton last (after ++ lost)).symm
        · intro entry hentry
          rcases List.mem_cons.1 hentry with rfl | hentry
          · exact ⟨last, rfl, hlast _ (mem_of_mem_collect hmem) _ List.mem_cons_self⟩
          · exact hlost entry hentry
      · refine ⟨lost, ?_, hlost⟩
        have hinsert := insertEntry_perm last.1 last.2
          fun entry hentry heq => hmem ⟨entry.2, heq ▸ hentry⟩
        refine .trans (hinsert.append_right lost) ?_
        refine .trans (.cons last hperm) ?_
        exact (List.perm_append_singleton last entries).symm

theorem mem_insertEntry_self (key : κ) (value : V) (container : List (κ × V)) :
    (key, value) ∈ insertEntry key value container := by
  induction container with
  | nil => exact List.mem_singleton.2 rfl
  | cons first rest ih =>
      rw [insertEntry]
      split_ifs
      · exact List.mem_cons_self
      · exact List.mem_cons_self
      · exact List.mem_cons_of_mem _ ih

theorem mem_insertEntry_of_ne (h : entry ∈ container) (hne : key ≠ entry.1) :
    entry ∈ insertEntry key value container := by
  induction container with
  | nil => exact absurd h List.not_mem_nil
  | cons first rest ih =>
      rw [insertEntry]
      split_ifs with hlt heq
      · exact List.mem_cons_of_mem _ h
      · rcases List.mem_cons.1 h with rfl | h
        · exact absurd heq hne
        · exact List.mem_cons_of_mem _ h
      · rcases List.mem_cons.1 h with rfl | h
        · exact List.mem_cons_self
        · exact List.mem_cons_of_mem _ (ih h)

theorem exists_mem_collect (h : entry ∈ entries) : ∃ value, (entry.1, value) ∈ collect entries := by
  induction entries using List.reverseRecOn with
  | nil => exact absurd h List.not_mem_nil
  | append_singleton entries last ih =>
      rw [collect_concat]
      by_cases hkey : last.1 = entry.1
      · exact ⟨last.2, hkey ▸ mem_insertEntry_self _ _ _⟩
      · rcases List.mem_append.1 h with h | h
        · obtain ⟨value, hvalue⟩ := ih h
          exact ⟨value, mem_insertEntry_of_ne hvalue hkey⟩
        · exact absurd (congrArg Prod.fst (List.mem_singleton.1 h)).symm hkey

theorem mem_collect_map (f : κ → V) {name : κ} (h : name ∈ names) :
    (name, f name) ∈ collect (names.map fun name => (name, f name)) := by
  obtain ⟨value, hvalue⟩ := exists_mem_collect (List.mem_map_of_mem (f := fun name => (name, f name)) h)
  obtain ⟨other, -, hother⟩ := List.mem_map.1 (mem_of_mem_collect hvalue)
  obtain ⟨rfl, rfl⟩ := Prod.mk.inj hother
  exact hvalue

/-- A row with the keys of a container is a container of values that belong to the keys. -/
theorem exists_collect_map [Nonempty V]
    (h : container.map (·.1) = (collect (names.map fun name => (name, ()))).map (·.1)) :
    ∃ f : κ → V, container = collect (names.map fun name => (name, f name)) := by
  have hsorted : SortedByKey container := by
    have hkeys : (container.map (·.1)).Pairwise (· < ·) := by
      rw [h]
      exact List.pairwise_map.2 (sorted_collect _)
    exact List.pairwise_map.1 hkeys
  have hvalue : ∀ key, ∃ value, ∀ entry ∈ container, entry.1 = key → entry.2 = value := by
    intro key
    by_cases hmem : ∃ entry ∈ container, entry.1 = key
    · obtain ⟨entry, hentry, rfl⟩ := hmem
      exact ⟨entry.2, fun other hother hkey =>
        congrArg Prod.snd (eq_of_sorted hsorted hother hentry hkey)⟩
    · obtain ⟨value⟩ := ‹Nonempty V›
      exact ⟨value, fun entry hentry hkey => absurd ⟨entry, hentry, hkey⟩ hmem⟩
  choose f hf using hvalue
  refine ⟨f, ?_⟩
  calc container = (container.map (·.1)).map fun name => (name, f name) := by
        rw [List.map_map]
        conv_lhs => rw [← List.map_id container]
        refine List.map_congr_left fun entry hentry => ?_
        exact Prod.ext rfl (hf entry.1 entry hentry rfl)
    _ = (collect (names.map fun name => (name, ()))).map fun entry => (entry.1, f entry.1) := by
        rw [h, List.map_map]
        rfl
    _ = collect (names.map fun name => (name, f name)) := by
        rw [map_collect fun name (_ : Unit) => f name, List.map_map]
        rfl

theorem eqOn_of_collect_map {f g : κ → V} (h : (collect (names.map fun name => (name, f name))) =
      collect (names.map fun name => (name, g name))) : ∀ name ∈ names, f name = g name := by
  intro name hname
  have hmem := mem_collect_map f hname
  rw [h] at hmem
  obtain ⟨other, -, hother⟩ := List.mem_map.1 (mem_of_mem_collect hmem)
  obtain ⟨rfl, heq⟩ := Prod.mk.inj hother
  exact heq.symm

theorem collect_perm_of_nodup (h : (entries.map (·.1)).Nodup) : (collect entries).Perm entries := by
  obtain ⟨lost, hperm, hlost⟩ := collect_perm (List.pairwise_map.1 h)
  have hnone : lost = [] := by
    refine List.eq_nil_iff_forall_not_mem.2 fun entry hentry => ?_
    obtain ⟨later, hkey, hne⟩ := hlost entry hentry
    exact hne hkey.symm
  rwa [hnone, List.append_nil] at hperm

omit [LinearOrder κ] in
/-- Rows with the same keys, each once, are equal if they have the same entries. -/
theorem eq_of_perm_of_keys {as bs : List (κ × V)} (hperm : as.Perm bs)
    (hkeys : as.map (·.1) = bs.map (·.1)) (h : (as.map (·.1)).Nodup) : as = bs := by
  induction as generalizing bs with
  | nil => exact (List.nil_perm.1 hperm).symm
  | cons a as ih =>
      cases bs with
      | nil => exact absurd hperm.length_eq (by simp)
      | cons b bs =>
          rw [List.map_cons, List.map_cons] at hkeys
          obtain ⟨hkey, hrest⟩ := List.cons.inj hkeys
          obtain ⟨hnotMem, hnodup⟩ := List.nodup_cons.1 (List.map_cons ▸ h)
          have hab : a = b := by
            rcases List.mem_cons.1 (hperm.subset List.mem_cons_self) with hab | hmem
            · exact hab
            · refine absurd ?_ hnotMem
              rw [hrest]
              exact List.mem_map_of_mem hmem
          subst hab
          exact congrArg (a :: ·) (ih hperm.cons_inv hrest hnodup)

/-! ### The order of the bytes -/

/-- The fields with any bytes are declared in the order of their keys, and none of them again.  A field
is given by its key and the number of its bytes. -/
def KeyOrdered (fields : List (κ × ℕ)) : Prop :=
  fields.Pairwise fun field later =>
    field.2 ≠ 0 → later.1 ≠ field.1 ∧ (later.2 ≠ 0 → field.1 < later.1)

instance (fields : List (κ × ℕ)) : Decidable (KeyOrdered fields) :=
  inferInstanceAs (Decidable (List.Pairwise _ _))

/-- The keys and the numbers of bytes of entries. -/
def widths (entries : List (κ × List β)) : List (κ × ℕ) :=
  entries.map fun entry => (entry.1, entry.2.length)

omit [LinearOrder κ] in
theorem contents_filter (entries : List (κ × List β)) :
    contents (entries.filter fun entry => entry.2 ≠ []) = contents entries := by
  induction entries with
  | nil => rfl
  | cons entry entries ih =>
      rw [List.filter_cons]
      split_ifs with h
      · exact congrArg (entry.2 ++ ·) ih
      · have hempty : entry.2 = [] := by simpa using h
        rw [ih]
        show _ = entry.2 ++ contents entries
        rw [hempty, List.nil_append]

/-- **A container of ordered fields is written in the declared order.** -/
theorem contents_collect {entries : List (κ × List β)} (h : KeyOrdered (widths entries)) :
    contents (collect entries) = contents entries := by
  have hpairs := List.pairwise_map.1 h
  obtain ⟨lost, hperm, hlost⟩ := collect_perm hpairs
  have hempty : ∀ entry ∈ lost, entry.2 = [] := by
    intro entry hentry
    obtain ⟨later, hkey, hlater⟩ := hlost entry hentry
    by_contra hne
    exact (hlater fun hlength => hne (List.length_eq_zero_iff.1 hlength)).1 hkey
  -- only entries without bytes are lost, and the others are sorted on both sides
  have hfilter : lost.filter (fun entry => entry.2 ≠ []) = [] := by
    refine List.filter_eq_nil_iff.2 fun entry hentry => ?_
    simpa using hempty entry hentry
  have hkept := hperm.filter fun entry => entry.2 ≠ []
  rw [List.filter_append, hfilter, List.append_nil] at hkept
  rw [← contents_filter (collect entries), ← contents_filter entries]
  have hleft : ((collect entries).filter fun entry => entry.2 ≠ []).Pairwise (·.1 < ·.1) :=
    (sorted_collect entries).filter _
  have hright : (entries.filter fun entry => entry.2 ≠ []).Pairwise (·.1 < ·.1) := by
    refine List.pairwise_filter.2 (hpairs.imp ?_)
    intro a b hab ha hb
    have hlength : ∀ {bytes : List β}, decide (bytes ≠ []) = true → bytes.length ≠ 0 := by
      intro bytes hbytes hzero
      exact of_decide_eq_true hbytes (List.length_eq_zero_iff.1 hzero)
    exact (hab (hlength ha)).2 (hlength hb)
  refine congrArg contents (hkept.eq_of_pairwise ?_ hleft hright)
  intro a b _ _ hab hba
  exact absurd hba (lt_asymm hab)

def totalWidth (fields : List (κ × ℕ)) : ℕ := (fields.map (·.2)).sum

theorem totalWidth_collect (fields : List (κ × ℕ)) :
    ∃ lost, (collect fields ++ lost).Perm fields ∧
      totalWidth (collect fields) + totalWidth lost = totalWidth fields := by
  have htrivial : fields.Pairwise fun _ _ => True :=
    List.pairwise_of_forall fun _ _ => trivial
  obtain ⟨lost, hperm, -⟩ := collect_perm htrivial
  refine ⟨lost, hperm, ?_⟩
  have hsum := (hperm.map (·.2)).sum_eq
  rw [List.map_append, List.sum_append] at hsum
  exact hsum

theorem totalWidth_collect_le (fields : List (κ × ℕ)) :
    totalWidth (collect fields) ≤ totalWidth fields := by
  obtain ⟨lost, -, htotal⟩ := totalWidth_collect fields
  omega

theorem perm_of_totalWidth (h : totalWidth (collect fields) = totalWidth fields) :
    ((collect fields).filter (·.2 ≠ 0)).Perm (fields.filter (·.2 ≠ 0)) := by
  obtain ⟨lost, hperm, htotal⟩ := totalWidth_collect fields
  have hlost : lost.filter (·.2 ≠ 0) = [] := by
    refine List.filter_eq_nil_iff.2 fun field hfield => ?_
    have hzero : totalWidth lost = 0 := by omega
    have hfield := List.sum_eq_zero_iff_forall_eq_nat.1 hzero field.2 (List.mem_map_of_mem hfield)
    simpa using hfield
  have hkept := hperm.filter (·.2 ≠ 0)
  rw [List.filter_append, hlost, List.append_nil] at hkept
  exact hkept

/-- If no byte is lost, a field with bytes is not assigned again. -/
theorem pairwise_of_totalWidth (h : totalWidth (collect fields) = totalWidth fields) :
    fields.Pairwise fun field later => field.2 ≠ 0 → later.1 ≠ field.1 := by
  induction fields using List.reverseRecOn with
  | nil => exact List.Pairwise.nil
  | append_singleton fields last ih =>
      obtain ⟨lost, -, htotal⟩ := totalWidth_collect fields
      have happend : totalWidth (fields ++ [last]) = totalWidth fields + last.2 := by
        simp [totalWidth]
      rw [collect_concat, happend] at h
      have hrest : totalWidth (collect fields) = totalWidth fields ∧
          ∀ old, (last.1, old) ∈ collect fields → old = 0 := by
        by_cases hmem : ∃ old, (last.1, old) ∈ collect fields
        -- the bytes of the old value are lost
        · obtain ⟨old, hmem⟩ := hmem
          have hsorted := sorted_collect fields
          obtain ⟨before, after, hcontainer, hinsert⟩ :=
            insertEntry_of_mem last.1 last.2 hsorted hmem
          have hold : totalWidth (collect fields) + last.2 =
              totalWidth (insertEntry last.1 last.2 (collect fields)) + old := by
            rw [hinsert, hcontainer]
            simp only [totalWidth, List.map_append, List.map_cons, List.sum_append, List.sum_cons]
            omega
          refine ⟨by omega, ?_⟩
          intro other hother
          have hsame := eq_of_sorted hsorted hother hmem rfl
          have : other = old := congrArg Prod.snd hsame
          omega
        · have hinsert := insertEntry_perm last.1 last.2
            fun entry hentry heq => hmem ⟨entry.2, heq ▸ hentry⟩
          have hsum := (hinsert.map (·.2)).sum_eq
          rw [List.map_cons, List.sum_cons] at hsum
          refine ⟨?_, fun old hold => absurd ⟨old, hold⟩ hmem⟩
          unfold totalWidth at h htotal ⊢
          omega
      obtain ⟨hfields, hold⟩ := hrest
      refine List.pairwise_append.2 ⟨ih hfields, List.pairwise_singleton _ _, ?_⟩
      intro field hfield later hlater hwidth hkey
      obtain rfl := List.mem_singleton.1 hlater
      have hmem : field ∈ (collect fields).filter (·.2 ≠ 0) := by
        refine (perm_of_totalWidth hfields).symm.subset (List.mem_filter.2 ⟨hfield, ?_⟩)
        simpa using hwidth
      rw [show field = (later.1, field.2) from Prod.ext hkey.symm rfl] at hmem
      exact hwidth (hold field.2 (List.mem_filter.1 hmem).1)

/-! ### Records of parts -/

omit [LinearOrder κ] in
theorem length_contents (entries : List (κ × List β)) :
    (contents entries).length = totalWidth (widths entries) := by
  rw [contents, List.length_flatMap, totalWidth, widths, List.map_map]
  rfl

theorem widths_collect (entries : List (κ × List β)) :
    widths (collect entries) = collect (widths entries) :=
  map_collect (fun (_ : κ) (bytes : List β) => bytes.length) entries

theorem length_contents_collect_le (entries : List (κ × List β)) :
    (contents (collect entries)).length ≤ (contents entries).length := by
  rw [length_contents, length_contents, widths_collect]
  exact totalWidth_collect_le _

theorem eq_of_sum_le {as bs : List ℕ} (h : List.Forall₂ (· ≤ ·) as bs) (hsum : bs.sum ≤ as.sum) :
    as = bs := by
  induction h with
  | nil => rfl
  | @cons a b as bs hfirst hrest ih =>
      have hle := List.Forall₂.sum_le_sum hrest
      rw [List.sum_cons, List.sum_cons] at hsum
      rw [ih (by omega), show a = b by omega]

omit [LinearOrder κ] in
theorem eq_of_totalWidth_le {as bs : List (κ × ℕ)}
    (h : List.Forall₂ (fun a b => a.1 = b.1 ∧ a.2 ≤ b.2) as bs)
    (hsum : totalWidth bs ≤ totalWidth as) : as = bs := by
  have hkeys : as.map (·.1) = bs.map (·.1) := by
    refine List.forall₂_eq_eq_eq ▸ ?_
    exact List.forall₂_map_left_iff.2 (List.forall₂_map_right_iff.2 (h.imp fun _ _ hab => hab.1))
  have hwidths : as.map (·.2) = bs.map (·.2) := eq_of_sum_le
    (List.forall₂_map_left_iff.2 (List.forall₂_map_right_iff.2 (h.imp fun _ _ hab => hab.2))) hsum
  rw [List.zip_of_prod hkeys hwidths]
  exact (List.zip_of_prod rfl rfl).symm

/-- **Widths that belong to the keys are the declared ones**, if the containers have the same widths and
neither loses any. -/
theorem width_eq_of_collect {w : κ → ℕ}
    (hcollect : collect fields = collect (fields.map fun field => (field.1, w field.1)))
    (hfields : totalWidth (collect fields) = totalWidth fields)
    (hwidths : totalWidth (collect (fields.map fun field => (field.1, w field.1))) =
      totalWidth (fields.map fun field => (field.1, w field.1))) :
    ∀ field ∈ fields, field.2 = w field.1 := by
  intro field hfield
  by_cases hzero : field.2 = 0
  -- a key with a width is declared once only
  · have honce : fields.Pairwise fun a b => a.1 = b.1 → w a.1 = 0 := by
      refine (List.pairwise_map.1 (pairwise_of_totalWidth hwidths)).imp fun {a b} hab heq => ?_
      by_contra hne
      exact hab hne heq.symm
    have : Std.Symm fun a b : κ × ℕ => a.1 = b.1 → w a.1 = 0 :=
      ⟨fun a b hab heq => heq ▸ hab heq.symm⟩
    by_contra hne
    have hmem : (field.1, w field.1) ∈ collect fields := by
      have hnames := mem_collect_map w (List.mem_map_of_mem (f := Prod.fst) hfield)
      rw [List.map_map] at hnames
      rw [hcollect]
      exact hnames
    refine hne (hzero.trans (honce.forall hfield (mem_of_mem_collect hmem) ?_ rfl).symm)
    intro heq
    exact hne (congrArg Prod.snd heq)
  · have hmem : field ∈ (collect fields).filter (·.2 ≠ 0) :=
      (perm_of_totalWidth hfields).symm.subset (List.mem_filter.2 ⟨hfield, by simpa using hzero⟩)
    have hcontainer := (List.mem_filter.1 hmem).1
    rw [hcollect] at hcontainer
    obtain ⟨other, -, rfl⟩ := List.mem_map.1 (mem_of_mem_collect hcontainer)
    rfl

/-! ### Rows that are cut up -/

section Cut

variable {α : Type*}

/-- The parts of a row that items take, one after the other. -/
def cut (size : α → ℕ) : List α → List β → List (α × List β)
  | [], _ => []
  | item :: items, row => (item, row.take (size item)) :: cut size items (row.drop (size item))

theorem map_fst_cut (size : α → ℕ) (items : List α) (row : List β) :
    (cut size items row).map (·.1) = items := by
  induction items generalizing row with
  | nil => rfl
  | cons item items ih => rw [cut, List.map_cons, ih]

/-- A row that is long enough is cut into parts of the given sizes. -/
theorem length_of_mem_cut {size : α → ℕ} {items : List α} {row : List β}
    (h : (items.map size).sum ≤ row.length) :
    ∀ part ∈ cut size items row, part.2.length = size part.1 := by
  induction items generalizing row with
  | nil => exact fun part hpart => absurd hpart List.not_mem_nil
  | cons item items ih =>
      rw [List.map_cons, List.sum_cons] at h
      intro part hpart
      rcases List.mem_cons.1 hpart with rfl | hpart
      · exact List.length_take_of_le (by omega)
      · refine ih ?_ part hpart
        rw [List.length_drop]
        omega

theorem flatMap_cut (size : α → ℕ) (items : List α) (row : List β) :
    (cut size items row).flatMap (·.2) = row.take (items.map size).sum := by
  induction items generalizing row with
  | nil => rfl
  | cons item items ih =>
      rw [cut, List.flatMap_cons, ih, List.map_cons, List.sum_cons, List.take_add]

theorem cut_flatMap {size : α → ℕ} {items : List α} {part : α → List β}
    (h : ∀ item ∈ items, (part item).length = size item) (rest : List β) :
    cut size items (items.flatMap part ++ rest) = items.map fun item => (item, part item) := by
  induction items with
  | nil => rfl
  | cons item items ih =>
      have hitem := h item List.mem_cons_self
      rw [cut, List.flatMap_cons, List.append_assoc, ← hitem, List.take_left, List.drop_left,
        ih fun other hother => h other (List.mem_cons_of_mem _ hother), List.map_cons]

end Cut

end OrderedRecord

end AtomicProof
