/-
Names that stand for other names.

A list of bindings gives every name at most one meaning, the latest, and a name is resolved by going
from name to name until one stands for itself or for nothing.  Where no chain comes back to its
start this ends, after at most as many steps as there are bindings.

A frame of new bindings on top of older ones changes where the chains go that meet a new name.  Each new
name has a target, and a slot that it is meant to lead to; whether it does can be said by the chains of
the older bindings alone, as long as the new ones close no circle.

Main definitions:

* `AliasChain.latest`, `AliasChain.next` — the meaning of a name, and the step it makes;
* `AliasChain.Ends` — the chain of a name and its end;
* `AliasChain.Reaches` — the first name of a set on a chain;
* `AliasChain.Alias`, `AliasChain.LeadsTo` — a new name, and a chain that it does not lead astray.

Main results:

* `AliasChain.Ends.steps_le` — **a chain has at most as many steps as there are bindings**;
* `AliasChain.ends_redirect` — what becomes of a chain when some names are bound anew;
* `AliasChain.ends_slot_iff` — **when the new names lead to their slots**.
-/

import Mathlib.Data.List.Nodup
import Mathlib.Data.List.Perm.Subperm

set_option autoImplicit false

namespace AliasChain

variable {α : Type} [DecidableEq α]

/-! ### Bindings -/

/-- What the latest binding of a name binds it to. -/
def latest (bindings : List (α × α)) (name : α) : Option α := bindings.reverse.lookup name

/-- The name a name stands for, when it is another one. -/
def next (bindings : List (α × α)) (name : α) : Option α :=
  match latest bindings name with
  | some target => if target = name then none else some target
  | none => none

/-- A name that stands for itself or for nothing. -/
def Terminal (bindings : List (α × α)) (name : α) : Prop := next bindings name = none

section Bindings

variable {bindings : List (α × α)} {name target : α}

theorem next_eq_some_iff :
    next bindings name = some target ↔ latest bindings name = some target ∧ target ≠ name := by
  rw [next]
  cases latest bindings name with
  | none => simp
  | some found =>
      by_cases hsame : found = name
      · simp only [if_pos hsame, Option.some.injEq, reduceCtorEq, false_iff]
        rintro ⟨rfl, hne⟩
        exact hne hsame
      · simp only [if_neg hsame, Option.some.injEq]
        constructor
        · rintro rfl
          exact ⟨rfl, hsame⟩
        · exact fun h => h.1

theorem terminal_iff :
    Terminal bindings name ↔ ∀ target, latest bindings name = some target → target = name := by
  rw [Terminal, Option.eq_none_iff_forall_ne_some]
  constructor
  · intro h target htarget
    by_contra hne
    exact h target (next_eq_some_iff.mpr ⟨htarget, hne⟩)
  · intro h target htarget
    obtain ⟨hlatest, hne⟩ := next_eq_some_iff.mp htarget
    exact hne (h target hlatest)

theorem terminal_of_latest_self (h : latest bindings name = some name) : Terminal bindings name := by
  rw [terminal_iff, h]
  exact fun target htarget => (Option.some.inj htarget).symm

theorem next_congr {bindings' : List (α × α)} (h : latest bindings' name = latest bindings name) :
    next bindings' name = next bindings name := by
  rw [next, next, h]

theorem latest_append (older newer : List (α × α)) (name : α) :
    latest (older ++ newer) name = (latest newer name).or (latest older name) := by
  rw [latest, latest, latest, List.reverse_append, List.lookup_append]

theorem latest_concat (bindings : List (α × α)) (bound target name : α) :
    latest (bindings ++ [(bound, target)]) name =
      if name = bound then some target else latest bindings name := by
  rw [latest_append]
  by_cases h : name = bound
  · simp [latest, h]
  · have hne : (name == bound) = false := beq_eq_false_iff_ne.mpr h
    simp [latest, List.lookup_cons, hne, h]

theorem terminal_concat_iff (bound : α) :
    Terminal (bindings ++ [(bound, target)]) name ↔
      if name = bound then target = name else Terminal bindings name := by
  rw [terminal_iff]
  by_cases h : name = bound
  · simp [latest_concat, h]
  · simp only [latest_concat, if_neg h]
    rw [terminal_iff]

theorem not_terminal_concat (hname : ¬ Terminal bindings name)
    (htarget : Terminal bindings target) (bound : α) :
    ¬ Terminal (bindings ++ [(bound, target)]) name := by
  rw [terminal_concat_iff]
  split_ifs with h
  · rintro rfl
    exact hname htarget
  · exact hname

end Bindings

/-! ### Chains -/

/-- The chain of a name: its number of steps, and where it ends. -/
inductive Ends (bindings : List (α × α)) : ℕ → α → α → Prop
  | stop {name : α} : Terminal bindings name → Ends bindings 0 name name
  | step {steps : ℕ} {name target last : α} :
      next bindings name = some target → Ends bindings steps target last →
      Ends bindings (steps + 1) name last

section Chains

variable {bindings : List (α × α)} {name last : α} {steps : ℕ}

theorem Ends.terminal (h : Ends bindings steps name last) : Terminal bindings last := by
  induction h with
  | stop h => exact h
  | step _ _ ih => exact ih

theorem Ends.unique (h : Ends bindings steps name last) {steps' : ℕ} {last' : α}
    (h' : Ends bindings steps' name last') : steps = steps' ∧ last = last' := by
  induction h generalizing steps' with
  | stop hstop =>
      cases h' with
      | stop _ => exact ⟨rfl, rfl⟩
      | step hnext _ =>
          rw [Terminal] at hstop
          rw [hstop] at hnext
          exact absurd hnext (by simp)
  | step hnext _ ih =>
      cases h' with
      | stop hstop =>
          rw [Terminal] at hstop
          rw [hstop] at hnext
          exact absurd hnext (by simp)
      | step hnext' hrest =>
          rw [hnext] at hnext'
          obtain rfl := Option.some.inj hnext'
          obtain ⟨hsteps, hlast⟩ := ih hrest
          exact ⟨by rw [hsteps], hlast⟩

theorem Ends.tail {target : α} (h : Ends bindings steps name last)
    (hnext : next bindings name = some target) :
    ∃ left, steps = left + 1 ∧ Ends bindings left target last := by
  cases h with
  | stop hstop =>
      rw [Terminal, hnext] at hstop
      exact nomatch hstop
  | @step left _ _ _ hnext' hrest =>
      rw [hnext, Option.some.injEq] at hnext'
      subst hnext'
      exact ⟨left, rfl, hrest⟩

/-- The names on a chain are distinct, and all but the last are bound. -/
theorem Ends.exists_names (h : Ends bindings steps name last) :
    ∃ names : List α, names.length = steps ∧ names.Nodup ∧
      ∀ x ∈ names, x ∈ bindings.map Prod.fst ∧
        ∃ left, 0 < left ∧ left ≤ steps ∧ Ends bindings left x last := by
  induction h with
  | stop _ => exact ⟨[], rfl, List.nodup_nil, by simp⟩
  | @step steps name target last hnext hrest ih =>
      obtain ⟨names, hlength, hnodup, hall⟩ := ih
      have hchain := Ends.step hnext hrest
      refine ⟨name :: names, by rw [List.length_cons, hlength], ?_, ?_⟩
      · refine List.nodup_cons.mpr ⟨?_, hnodup⟩
        intro hmem
        obtain ⟨-, left, -, hle, hleft⟩ := hall name hmem
        have hsame := (hchain.unique hleft).1
        omega
      · intro x hx
        rcases List.mem_cons.mp hx with rfl | hx
        · refine ⟨?_, steps + 1, by omega, Nat.le_refl _, hchain⟩
          have hlatest := (next_eq_some_iff.mp hnext).1
          rw [latest] at hlatest
          obtain ⟨front, rest, hsplit, -⟩ := List.lookup_eq_some_iff.mp hlatest
          have hmem : (x, target) ∈ bindings.reverse := by
            rw [hsplit]
            simp
          exact List.mem_map.mpr ⟨(x, target), List.mem_reverse.mp hmem, rfl⟩
        · obtain ⟨hbound, left, hpos, hle, hleft⟩ := hall x hx
          exact ⟨hbound, left, hpos, by omega, hleft⟩

/-- **A chain has at most as many steps as there are bindings.** -/
theorem Ends.steps_le (h : Ends bindings steps name last) : steps ≤ bindings.length := by
  obtain ⟨names, hlength, hnodup, hall⟩ := h.exists_names
  have hsub : names ⊆ bindings.map Prod.fst := fun x hx => (hall x hx).1
  have hle := (hnodup.subperm hsub).length_le
  rwa [hlength, List.length_map] at hle

theorem ends_of_latest {target : α} (h : latest bindings name = some target)
    (hterminal : Terminal bindings target) : ∃ steps, Ends bindings steps name target := by
  by_cases hsame : target = name
  · subst hsame
    exact ⟨0, .stop hterminal⟩
  · exact ⟨1, .step (next_eq_some_iff.mpr ⟨h, hsame⟩) (.stop hterminal)⟩

/-- A binding to the end of a chain leaves every chain an end. -/
theorem Ends.concat {target : α} (h : Ends bindings steps name last)
    (htarget : Terminal bindings target) (bound : α) :
    ∃ steps last, Ends (bindings ++ [(bound, target)]) steps name last := by
  have hresolved : Terminal (bindings ++ [(bound, target)]) target := by
    rw [terminal_concat_iff]
    split_ifs
    · rfl
    · exact htarget
  have hbound : ∃ steps, Ends (bindings ++ [(bound, target)]) steps bound target :=
    ends_of_latest (by rw [latest_concat, if_pos rfl]) hresolved
  induction h with
  | @stop name hstop =>
      by_cases hname : name = bound
      · obtain ⟨steps, hsteps⟩ := hbound
        exact ⟨steps, target, hname ▸ hsteps⟩
      · refine ⟨0, name, .stop ?_⟩
        rw [terminal_concat_iff, if_neg hname]
        exact hstop
  | @step steps name middle last hnext _ ih =>
      by_cases hname : name = bound
      · obtain ⟨steps, hsteps⟩ := hbound
        exact ⟨steps, target, hname ▸ hsteps⟩
      · obtain ⟨steps', last', hrest⟩ := ih
        have hsame : next (bindings ++ [(bound, target)]) name = next bindings name :=
          next_congr (by rw [latest_concat, if_neg hname])
        exact ⟨steps' + 1, last', .step (by rw [hsame, hnext]) hrest⟩

end Chains

/-! ### Redirected chains -/

/-- `target` is on the chain of a name, and no name of `keys` is before it. -/
inductive Reaches (bindings : List (α × α)) (keys : List α) : α → α → Prop
  | here {name : α} : Reaches bindings keys name name
  | step {name middle target : α} : name ∉ keys → next bindings name = some middle →
      Reaches bindings keys middle target → Reaches bindings keys name target

section Redirect

variable {bindings bindings' : List (α × α)} {keys : List α} {name last : α} {steps : ℕ}

/-- A chain that meets none of the names bound anew is as it was. -/
theorem ends_redirect (hsame : ∀ x, x ∉ keys → next bindings' x = next bindings x)
    (h : Ends bindings steps name last) :
    (∃ key ∈ keys, Reaches bindings keys name key) ∨ ∃ steps, Ends bindings' steps name last := by
  induction h with
  | @stop name hstop =>
      by_cases hkey : name ∈ keys
      · exact Or.inl ⟨name, hkey, .here⟩
      · refine Or.inr ⟨0, .stop ?_⟩
        rw [Terminal, hsame name hkey]
        exact hstop
  | @step steps name middle last hnext _ ih =>
      by_cases hkey : name ∈ keys
      · exact Or.inl ⟨name, hkey, .here⟩
      · rcases ih with ⟨key, hmem, hreaches⟩ | ⟨steps', hends⟩
        · exact Or.inl ⟨key, hmem, .step hkey hnext hreaches⟩
        · exact Or.inr ⟨steps' + 1, .step (by rw [hsame name hkey, hnext]) hends⟩

theorem Reaches.ends (hsame : ∀ x, x ∉ keys → next bindings' x = next bindings x) {key : α}
    (h : Reaches bindings keys name key) (hends : Ends bindings' steps key last) :
    ∃ steps, Ends bindings' steps name last := by
  induction h with
  | here => exact ⟨steps, hends⟩
  | @step name middle key hkey hnext _ ih =>
      obtain ⟨steps', hrest⟩ := ih hends
      exact ⟨steps' + 1, .step (by rw [hsame name hkey, hnext]) hrest⟩

theorem Reaches.congr (hsame : ∀ x, x ∉ keys → next bindings' x = next bindings x) {key : α}
    (h : Reaches bindings keys name key) : Reaches bindings' keys name key := by
  induction h with
  | here => exact .here
  | @step name middle key hkey hnext _ ih => exact .step hkey (by rw [hsame name hkey, hnext]) ih

theorem Reaches.steps_le (hsame : ∀ x, x ∉ keys → next bindings' x = next bindings x) {key : α}
    (h : Reaches bindings keys name key) (hends : Ends bindings' steps name last) :
    ∃ left ≤ steps, Ends bindings' left key last := by
  induction h generalizing steps with
  | here => exact ⟨steps, Nat.le_refl _, hends⟩
  | @step name middle key hkey hnext _ ih =>
      rw [← hsame name hkey] at hnext
      obtain ⟨rest, rfl, hrest⟩ := hends.tail hnext
      obtain ⟨left, hle, hleft⟩ := ih hrest
      exact ⟨left, by omega, hleft⟩

end Redirect

/-! ### A frame of new names -/

/-- A new name with its target, and the slot that it is meant to lead to. -/
structure Alias (α : Type) where
  name : α
  target : α
  slot : α
  deriving DecidableEq

/-- The bindings that a frame of new names makes. -/
def aliasBindings (aliases : List (Alias α)) : List (α × α) :=
  aliases.map fun entry => (entry.name, entry.target)

def aliasNames (aliases : List (Alias α)) : List α := aliases.map (·.name)

/-- The new names that the chain of a name meets have its slot, and where it meets none it ends there. -/
structure LeadsTo (older : List (α × α)) (aliases : List (Alias α)) (name slot : α) : Prop where
  met : ∀ other ∈ aliases, Reaches older (aliasNames aliases) name other.name → other.slot = slot
  ends : (∀ other ∈ aliases, ¬ Reaches older (aliasNames aliases) name other.name) →
    ∃ steps, Ends older steps name slot

/-- What a new name has to fulfil: one that is bound to itself is its own slot, and from the target of
any other the chain is not led astray. -/
def Alias.Faithful (older : List (α × α)) (aliases : List (Alias α)) (entry : Alias α) : Prop :=
  if entry.target = entry.name then entry.slot = entry.name
  else LeadsTo older aliases entry.target entry.slot

section Frame

variable {older : List (α × α)} {aliases : List (Alias α)} {name last slot : α} {steps : ℕ}

omit [DecidableEq α] in
theorem fst_aliasBindings (aliases : List (Alias α)) :
    (aliasBindings aliases).map Prod.fst = aliasNames aliases := by
  rw [aliasBindings, List.map_map]
  rfl

theorem latest_of_notMem {newer : List (α × α)} (h : name ∉ newer.map Prod.fst) :
    latest (older ++ newer) name = latest older name := by
  have hnone : latest newer name = none := by
    rw [latest, List.lookup_eq_none_iff]
    intro entry hentry
    rw [bne_iff_ne]
    rintro rfl
    exact h (List.mem_map_of_mem (List.mem_reverse.mp hentry))
  rw [latest_append, hnone, Option.none_or]

theorem next_aliasBindings (h : name ∉ aliasNames aliases) :
    next (older ++ aliasBindings aliases) name = next older name := by
  rw [← fst_aliasBindings] at h
  exact next_congr (latest_of_notMem h)

/-- A new name stands for its target, when it has no other. -/
theorem latest_alias (older : List (α × α))
    (hunique : ∀ a ∈ aliases, ∀ b ∈ aliases, a.name = b.name → a = b)
    {entry : Alias α} (hentry : entry ∈ aliases) :
    latest (older ++ aliasBindings aliases) entry.name = some entry.target := by
  have hmem : (entry.name, entry.target) ∈ (aliasBindings aliases).reverse :=
    List.mem_reverse.mpr (List.mem_map.mpr ⟨entry, hentry, rfl⟩)
  rw [latest_append, latest]
  cases hfound : (aliasBindings aliases).reverse.lookup entry.name with
  | none =>
      have hne := List.lookup_eq_none_iff.mp hfound _ hmem
      rw [bne_self_eq_false] at hne
      exact nomatch hne
  | some target =>
      obtain ⟨front, rest, hsplit, -⟩ := List.lookup_eq_some_iff.mp hfound
      have htarget : (entry.name, target) ∈ aliasBindings aliases := by
        rw [← List.mem_reverse, hsplit]
        exact List.mem_append_right _ List.mem_cons_self
      obtain ⟨other, hother, hpair⟩ := List.mem_map.mp htarget
      rw [Prod.mk.injEq] at hpair
      rw [Option.some_or, ← hpair.2, hunique other hother entry hentry hpair.1]

/-- The chain of a name that is not led astray ends at the slot, as soon as the new names on it lead to
theirs. -/
theorem LeadsTo.last_eq (h : LeadsTo older aliases name slot)
    (hends : Ends (older ++ aliasBindings aliases) steps name last)
    (hslots : ∀ other ∈ aliases, ∀ left ≤ steps,
      Ends (older ++ aliasBindings aliases) left other.name last → last = other.slot) :
    last = slot := by
  have hsame : ∀ x, x ∉ aliasNames aliases →
      next (older ++ aliasBindings aliases) x = next older x := fun x hx => next_aliasBindings hx
  by_cases hmet : ∃ other ∈ aliases, Reaches older (aliasNames aliases) name other.name
  · obtain ⟨other, hother, hreaches⟩ := hmet
    obtain ⟨left, hle, hleft⟩ := hreaches.steps_le hsame hends
    rw [hslots other hother left hle hleft, h.met other hother hreaches]
  · have hnone : ∀ other ∈ aliases, ¬ Reaches older (aliasNames aliases) name other.name :=
      fun other hother hreaches => hmet ⟨other, hother, hreaches⟩
    obtain ⟨_, holder⟩ := h.ends hnone
    rcases ends_redirect hsame holder with ⟨key, hkey, hreaches⟩ | ⟨_, hnewer⟩
    · obtain ⟨other, hother, rfl⟩ := List.mem_map.mp hkey
      exact absurd hreaches (hnone other hother)
    · exact (hends.unique hnewer).2

/-- The chain from a new name that is faithful ends at its slot: by induction on the number of steps,
because the new names further on have fewer. -/
theorem last_eq_slot (hunique : ∀ a ∈ aliases, ∀ b ∈ aliases, a.name = b.name → a = b)
    (hfaithful : ∀ entry ∈ aliases, entry.Faithful older aliases) {entry : Alias α}
    (hentry : entry ∈ aliases)
    (hends : Ends (older ++ aliasBindings aliases) steps entry.name last) : last = entry.slot := by
  induction steps using Nat.strongRecOn generalizing entry with
  | ind steps ih =>
      have hlatest := latest_alias older hunique hentry
      have hthis := hfaithful entry hentry
      unfold Alias.Faithful at hthis
      split_ifs at hthis with hself
      · have hstop := terminal_of_latest_self (hself ▸ hlatest)
        rw [(hends.unique (.stop hstop)).2, hthis]
      · obtain ⟨rest, rfl, hrest⟩ := hends.tail (next_eq_some_iff.mpr ⟨hlatest, hself⟩)
        exact hthis.last_eq hrest fun other hother left hle hleft =>
          ih left (by omega) hother hleft

/-- A chain that ends at the slot is not led astray, when the new names lead to their slots. -/
theorem leadsTo_of_ends (hends : Ends (older ++ aliasBindings aliases) steps name slot)
    (hslots : ∀ other ∈ aliases, ∃ steps,
      Ends (older ++ aliasBindings aliases) steps other.name other.slot) :
    LeadsTo older aliases name slot := by
  have hsame : ∀ x, x ∉ aliasNames aliases →
      next (older ++ aliasBindings aliases) x = next older x := fun x hx => next_aliasBindings hx
  constructor
  · intro other hother hreaches
    obtain ⟨_, hother⟩ := hslots other hother
    obtain ⟨_, hthrough⟩ := hreaches.ends hsame hother
    exact (hthrough.unique hends).2
  · intro hnone
    have hback : ∀ x, x ∉ aliasNames aliases →
        next older x = next (older ++ aliasBindings aliases) x := fun x hx => (hsame x hx).symm
    refine (ends_redirect hback hends).resolve_left ?_
    rintro ⟨key, hkey, hreaches⟩
    obtain ⟨other, hother, rfl⟩ := List.mem_map.mp hkey
    exact hnone other hother (hreaches.congr hback)

/-- **Where the new names close no circle, they lead to their slots exactly if each one is faithful.** -/
theorem ends_slot_iff (hunique : ∀ a ∈ aliases, ∀ b ∈ aliases, a.name = b.name → a = b)
    (hclosed : ∀ entry ∈ aliases, ∃ steps last,
      Ends (older ++ aliasBindings aliases) steps entry.name last) :
    (∀ entry ∈ aliases, ∃ steps, Ends (older ++ aliasBindings aliases) steps entry.name entry.slot) ↔
      ∀ entry ∈ aliases, entry.Faithful older aliases := by
  constructor
  · intro h entry hentry
    have hlatest := latest_alias older hunique hentry
    obtain ⟨steps, hends⟩ := h entry hentry
    unfold Alias.Faithful
    split_ifs with hself
    · exact (hends.unique (.stop (terminal_of_latest_self (hself ▸ hlatest)))).2
    · obtain ⟨_, -, hrest⟩ := hends.tail (next_eq_some_iff.mpr ⟨hlatest, hself⟩)
      exact leadsTo_of_ends hrest h
  · intro h entry hentry
    obtain ⟨steps, last, hends⟩ := hclosed entry hentry
    exact ⟨steps, last_eq_slot hunique h hentry hends ▸ hends⟩

end Frame

end AliasChain
