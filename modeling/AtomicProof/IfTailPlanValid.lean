/-
The rewrite plan of the common-tail optimiser is complete.

The plan that `IfTail.optimize` builds names every old instruction once, at its new place, and the
conditionals in its records are renumbered to the places they have moved to.  These stay in front of
what they enclose, so the plan passes both checks and the fallback to the unchanged script is never
taken on a script that the parser accepts.

Main definitions:

* `IfTail.RewriteOf` — a row of atoms that the optimiser may make of a script;
* `IfTail.Opened` — arms whose conditionals were opened in the order in which they enclose;
* `IfTail.renumber` — an arm of a conditional at its new place.

Main results:

* `IfTail.rewriteOf_optimizeSequence` — the optimised tree is such a row;
* `IfTail.RewriteOf.normalizeBranchPaths_eq`, `IfTail.RewriteOf.validate_eq` — **its plan passes its
  own checks**.
-/

import AtomicProof.GroupedFold
import AtomicProof.IfTailPlan
import Mathlib.Data.List.Induction
import Mathlib.Data.List.NodupEquivFin

set_option autoImplicit false

namespace AtomicProof.IfTail

variable {options : StructuredIfTailOptions} {instructions : List String} {atoms : List Atom}
variable {o : InstructionOriginRef} {arms : List BranchPredicate} {pc : ℕ}

/-! ### The records of a script -/

/-- The record of every instruction of a script: its place and the arms that enclose it. -/
def recordedOrigins (instructions : List String) : List InstructionOriginRef :=
  (enclosingArms 0 [] instructions).zipIdx.map fun p => ⟨p.2, p.1⟩

theorem mem_recordedOrigins : o ∈ recordedOrigins instructions ↔
      (enclosingArms 0 [] instructions)[o.oldPC]? = some o.path := by
  rw [recordedOrigins, List.mem_map]
  constructor
  · rintro ⟨⟨arms, pc⟩, hmem, rfl⟩
    exact List.mem_zipIdx_iff_getElem?.mp hmem
  · intro h
    exact ⟨(o.path, o.oldPC), List.mem_zipIdx_iff_getElem?.mpr h, rfl⟩

theorem map_oldPC_recordedOrigins (instructions : List String) :
    (recordedOrigins instructions).map (·.oldPC) = List.range instructions.length := by
  have hcomp : ((·.oldPC) ∘ fun p : List BranchPredicate × ℕ =>
      (⟨p.2, p.1⟩ : InstructionOriginRef)) = Prod.snd := rfl
  rw [recordedOrigins, List.map_map, hcomp, List.zipIdx_map_snd, length_enclosingArms,
    List.range_eq_range']

theorem nodup_recordedOrigins (instructions : List String) :
    ((recordedOrigins instructions).map (·.oldPC)).Nodup := by
  rw [map_oldPC_recordedOrigins]
  exact List.nodup_range

/-- The conditionals of the arms are openers of the script, each in the arms outside of it. -/
def Opened (instructions : List String) (arms : List BranchPredicate) : Prop :=
  ∀ outer p inner, arms = outer ++ p :: inner →
    (∃ s, instructions[p.ifPC]? = some s ∧ (controlToken s = .if ∨ controlToken s = .notif)) ∧
      (⟨p.ifPC, outer⟩ : InstructionOriginRef) ∈ recordedOrigins instructions

theorem opened_nil : Opened instructions [] := by
  intro outer p inner h
  simp at h

theorem opened_concat {q : BranchPredicate} : Opened instructions (arms ++ [q]) ↔
      Opened instructions arms ∧
        (∃ s, instructions[q.ifPC]? = some s ∧ (controlToken s = .if ∨ controlToken s = .notif)) ∧
        (⟨q.ifPC, arms⟩ : InstructionOriginRef) ∈ recordedOrigins instructions := by
  constructor
  · intro h
    refine ⟨fun outer p inner harms => h outer p (inner ++ [q]) (by simp [harms]), h arms q [] rfl⟩
  · rintro ⟨harms, hq⟩ outer p inner h
    rcases List.eq_nil_or_concat' inner with rfl | ⟨inner, last, rfl⟩
    · obtain ⟨rfl, hlast⟩ := List.append_inj' h rfl
      obtain rfl := (List.cons.inj hlast).1
      exact hq
    · have hsplit : arms ++ [q] = (outer ++ p :: inner) ++ [last] := by
        simpa using h
      obtain ⟨hinit, -⟩ := List.append_inj' hsplit rfl
      exact harms outer p inner hinit

theorem Opened.dropLast (h : Opened instructions arms) : Opened instructions arms.dropLast := by
  rcases List.eq_nil_or_concat' arms with rfl | ⟨init, q, rfl⟩
  · exact h
  · rw [List.dropLast_concat]
    exact (opened_concat.mp h).1

theorem Opened.ownArms (h : Opened instructions arms) (s : String) :
    Opened instructions (ownArms s arms) := by
  unfold IfTail.ownArms
  split
  · exact h.dropLast
  · exact h.dropLast
  · exact h

theorem Opened.armsBehind {s : String}
    (h : Opened instructions arms) (hs : instructions[pc]? = some s)
    (hown : (⟨pc, IfTail.ownArms s arms⟩ : InstructionOriginRef) ∈ recordedOrigins instructions) :
    Opened instructions (armsBehind pc s arms) := by
  cases htoken : controlToken s with
  | none => rwa [armsBehind_of_none htoken]
  | «if» =>
      rw [ownArms_opener (.inl htoken)] at hown
      rw [armsBehind_opener (.inl htoken)]
      exact opened_concat.mpr ⟨h, ⟨s, hs, .inl htoken⟩, hown⟩
  | notif =>
      rw [ownArms_opener (.inr htoken)] at hown
      rw [armsBehind_opener (.inr htoken)]
      exact opened_concat.mpr ⟨h, ⟨s, hs, .inr htoken⟩, hown⟩
  | «else» =>
      rcases List.eq_nil_or_concat' arms with rfl | ⟨init, q, rfl⟩
      · simpa [IfTail.armsBehind, htoken] using opened_nil
      · rw [armsBehind_else htoken]
        obtain ⟨hinit, hq⟩ := opened_concat.mp h
        exact opened_concat.mpr ⟨hinit, hq⟩
  | endif =>
      rw [IfTail.armsBehind, htoken]
      exact h.dropLast

theorem opened_of_enclosingArms (rest : List String) (pc : ℕ)
    (hrest : ∀ i, instructions[pc + i]? = rest[i]?)
    (henclosing : ∀ i, (enclosingArms 0 [] instructions)[pc + i]? =
      (enclosingArms pc arms rest)[i]?)
    (harms : Opened instructions arms) {i : ℕ} {own : List BranchPredicate}
    (hown : (enclosingArms pc arms rest)[i]? = some own) : Opened instructions own := by
  induction rest generalizing pc arms i with
  | nil => simp [enclosingArms] at hown
  | cons s rest ih =>
      have hs : instructions[pc]? = some s := hrest 0
      have hrecord : (⟨pc, ownArms s arms⟩ : InstructionOriginRef) ∈
          recordedOrigins instructions :=
        mem_recordedOrigins.mpr (henclosing 0)
      cases i with
      | zero =>
          obtain rfl := Option.some.inj hown
          exact harms.ownArms s
      | succ i =>
          refine ih (pc + 1) (fun i => ?_) (fun i => ?_) (harms.armsBehind hs hrecord) hown
          · rw [Nat.add_assoc, Nat.add_comm 1]
            exact hrest (i + 1)
          · rw [Nat.add_assoc, Nat.add_comm 1]
            exact henclosing (i + 1)

/-- **The arms in a record are open conditionals of the script.** -/
theorem opened_of_mem (h : o ∈ recordedOrigins instructions) : Opened instructions o.path := by
  refine opened_of_enclosingArms instructions 0 (fun i => ?_) (fun i => ?_) opened_nil
    (mem_recordedOrigins.mp h)
  · rw [Nat.zero_add]
  · rw [Nat.zero_add]

/-! ### Rows that the optimiser makes of a script -/

/-- Every record of an atom names an instruction with the same part in a conditional. -/
def Faithful (instructions : List String) (a : Atom) : Prop :=
  ∀ o ∈ a.origins, (instructions[o.oldPC]?).map controlToken = some (controlToken a.encoding)

theorem faithful_mergeOriginsAtom {k d : Atom} (hk : Faithful instructions k)
    (hd : Faithful instructions d) (h : equivalentAtom k d = true) :
    Faithful instructions (mergeOriginsAtom k d) := by
  intro o ho
  rcases mem_origins_mergeOriginsAtom.mp ho with ho | ho
  · exact hk o ho
  · exact (hd o ho).trans (by rw [← controlToken_of_equivalentAtom h]; rfl)

theorem faithful_locate (rest : List String) (pc : ℕ) (arms : List BranchPredicate)
    (hrest : ∀ i, instructions[pc + i]? = rest[i]?) :
    ∀ a ∈ locate options pc arms rest, Faithful instructions a := by
  induction rest generalizing pc arms with
  | nil => simp [locate]
  | cons s rest ih =>
      intro a ha
      rw [locate, List.mem_cons] at ha
      rcases ha with rfl | ha
      · intro o ho
        obtain rfl := List.mem_singleton.mp ho
        have hs : instructions[pc]? = some s := hrest 0
        rw [hs]
        rfl
      · refine ih (pc + 1) _ (fun i => ?_) a ha
        rw [Nat.add_assoc, Nat.add_comm 1]
        exact hrest (i + 1)

theorem origins_ne_nil_locate (pc : ℕ) (arms : List BranchPredicate) (rest : List String) :
    ∀ a ∈ locate options pc arms rest, a.origins ≠ [] := by
  induction rest generalizing pc arms with
  | nil => simp [locate]
  | cons s rest ih =>
      intro a ha
      rw [locate, List.mem_cons] at ha
      rcases ha with rfl | ha
      · exact List.cons_ne_nil _ _
      · exact ih _ _ a ha

/-- A row of atoms that the optimiser may make of a script: it holds every record once, in atoms
with the same part in a conditional, and the conditionals of a record come first. -/
structure RewriteOf (instructions : List String) (atoms : List Atom) : Prop where
  perm : (originsOf atoms).Perm (recordedOrigins instructions)
  faithful : ∀ a ∈ atoms, Faithful instructions a
  nonempty : ∀ a ∈ atoms, a.origins ≠ []
  before : ∀ o ∈ originsOf atoms, ∀ p ∈ o.path, Before atoms p.ifPC o.oldPC

/-- **The optimised tree of a script is such a row.** -/
theorem rewriteOf_optimizeSequence {nodes : List Node} (h : parse instructions options = some nodes)
    (c : Counters) : RewriteOf instructions (flatten (optimizeSequence nodes c).1) := by
  have hflat := parse_locate h
  have horigins : originsOf (flatten nodes) = recordedOrigins instructions := by
    rw [hflat, originsOf_locate]
    rfl
  have hnodup : (originsOf (flatten nodes)).Nodup := by
    rw [horigins]
    exact (nodup_recordedOrigins instructions).of_map _
  have hperm := perm_originsOf_optimizeSequence nodes c hnodup
  refine ⟨hperm.trans (by rw [horigins]), ?_, ?_, ?_⟩
  · refine forall_optimizeSequence (fun _ _ => faithful_mergeOriginsAtom) nodes c ?_
    rw [hflat]
    exact faithful_locate instructions 0 [] fun i => by rw [Nat.zero_add]
  · refine forall_optimizeSequence (P := fun a => a.origins ≠ []) ?_ nodes c ?_
    · intro k d hk _ _ hnil
      refine hk (List.eq_nil_iff_forall_not_mem.mpr fun o ho => ?_)
      exact List.eq_nil_iff_forall_not_mem.mp hnil o (mem_origins_mergeOriginsAtom.mpr (.inl ho))
    · rw [hflat]
      exact origins_ne_nil_locate 0 [] instructions
  · intro o ho p hp
    have hbefore := before_optimizeSequence nodes c [] (parse_located h) hnodup o
      (hperm.mem_iff.mp ho) p hp
    exact hbefore.resolve_left List.not_mem_nil

/-! ### The new places -/

theorem length_recordOrigins (newPC : ℕ) (places : List (Option ℕ))
    (origins : List InstructionOriginRef) :
    (recordOrigins newPC places origins).length = places.length := by
  unfold recordOrigins
  induction origins generalizing places with
  | nil => rfl
  | cons o origins ih => rw [List.foldl_cons, ih, List.length_set]

theorem recordOrigins_of_notMem {newPC pc : ℕ} {places : List (Option ℕ)}
    {origins : List InstructionOriginRef} (h : pc ∉ origins.map (·.oldPC)) :
    (recordOrigins newPC places origins)[pc]? = places[pc]? := by
  unfold recordOrigins
  induction origins generalizing places with
  | nil => rfl
  | cons o origins ih =>
      rw [List.map_cons, List.mem_cons, not_or] at h
      rw [List.foldl_cons, ih h.2, List.getElem?_set_ne (Ne.symm h.1)]

theorem recordOrigins_of_mem {newPC : ℕ} {places : List (Option ℕ)}
    {origins : List InstructionOriginRef} (h : pc ∈ origins.map (·.oldPC))
    (hpc : pc < places.length) :
    (recordOrigins newPC places origins)[pc]? = some (some newPC) := by
  unfold recordOrigins
  induction origins generalizing places with
  | nil => simp at h
  | cons o origins ih =>
      rw [List.foldl_cons]
      by_cases hlater : pc ∈ origins.map (·.oldPC)
      · exact ih hlater (by rwa [List.length_set])
      · have hfirst : pc = o.oldPC := by
          rw [List.map_cons, List.mem_cons] at h
          exact h.resolve_right hlater
        have hkept := @recordOrigins_of_notMem newPC pc (places.set o.oldPC (some newPC)) origins
          hlater
        unfold recordOrigins at hkept
        rw [hkept, ← hfirst, List.getElem?_set_self hpc]

theorem foldl_recordOrigins_of_notMem (atoms : List Atom) (k : ℕ)
    (places : List (Option ℕ)) (h : pc ∉ (originsOf atoms).map (·.oldPC)) :
    ((atoms.zipIdx k).foldl (fun places (p : Atom × ℕ) => recordOrigins p.2 places p.1.origins)
      places)[pc]? = places[pc]? := by
  induction atoms generalizing k places with
  | nil => rfl
  | cons a atoms ih =>
      rw [originsOf_cons, List.map_append, List.mem_append, not_or] at h
      rw [List.zipIdx_cons, List.foldl_cons, ih _ _ h.2, recordOrigins_of_notMem h.1]

/-- The plan of a row gives the origins of an atom its place. -/
theorem foldl_recordOrigins_of_mem (atoms : List Atom) (k : ℕ) (places : List (Option ℕ))
    (hnodup : ((originsOf atoms).map (·.oldPC)).Nodup) {i : ℕ} {a : Atom}
    (hi : atoms[i]? = some a) (ho : o ∈ a.origins)
    (hpc : o.oldPC < places.length) :
    ((atoms.zipIdx k).foldl (fun places (p : Atom × ℕ) => recordOrigins p.2 places p.1.origins)
      places)[o.oldPC]? = some (some (k + i)) := by
  induction atoms generalizing k places i with
  | nil => simp at hi
  | cons first atoms ih =>
      rw [originsOf_cons, List.map_append] at hnodup
      rw [List.zipIdx_cons, List.foldl_cons]
      cases i with
      | zero =>
          obtain rfl := Option.some.inj hi
          have hmem : o.oldPC ∈ first.origins.map (·.oldPC) := List.mem_map_of_mem ho
          rw [foldl_recordOrigins_of_notMem _ _ _ fun h =>
              List.disjoint_of_nodup_append hnodup hmem h,
            recordOrigins_of_mem hmem hpc]
          rfl
      | succ i =>
          rw [ih (k + 1) _ hnodup.of_append_right hi (by rwa [length_recordOrigins]),
            Nat.add_assoc, Nat.add_comm 1]

theorem length_foldl_recordOrigins (atoms : List Atom) (k : ℕ) (places : List (Option ℕ)) :
    ((atoms.zipIdx k).foldl (fun places (p : Atom × ℕ) => recordOrigins p.2 places p.1.origins)
      places).length = places.length := by
  induction atoms generalizing k places with
  | nil => rfl
  | cons a atoms ih => rw [List.zipIdx_cons, List.foldl_cons, ih, length_recordOrigins]

/-! ### The plan of a row -/

/-- The plan of a row of atoms, before the arms in it are renumbered. -/
def planOf (instructions : List String) (atoms : List Atom) : InstructionRewritePlan :=
  flattenPlan (List.replicate instructions.length none) atoms

/-- An arm of a conditional at its new place. -/
def renumber (oldToNew : List (Option ℕ)) (p : BranchPredicate) : BranchPredicate :=
  { p with ifPC := ((oldToNew[p.ifPC]?).join).getD 0 }

/-- A record with its arms at their new places. -/
def renumberOrigin (oldToNew : List (Option ℕ)) (o : InstructionOriginRef) :
    InstructionOriginRef :=
  { o with path := o.path.map (renumber oldToNew) }

/-- The plan of a row, with its arms renumbered. -/
def renumberedPlan (instructions : List String) (atoms : List Atom) : InstructionRewritePlan where
  oldToNew := (planOf instructions atoms).oldToNew
  newToOld := atoms.map fun a =>
    sortOrigins (a.origins.map (renumberOrigin (planOf instructions atoms).oldToNew))

theorem getElem?_of_pair_sublist {x y : Atom} (h : [x, y].Sublist atoms) :
    ∃ i j : ℕ, i < j ∧ atoms[i]? = some x ∧ atoms[j]? = some y := by
  obtain ⟨f, hf⟩ := List.sublist_iff_exists_orderEmbedding_getElem?_eq.mp h
  exact ⟨f 0, f 1, f.lt_iff_lt.mpr Nat.zero_lt_one, (hf 0).symm, (hf 1).symm⟩

theorem length_oldToNew_planOf :
    (planOf instructions atoms).oldToNew.length = instructions.length :=
  (length_foldl_recordOrigins atoms 0 _).trans List.length_replicate

namespace RewriteOf

variable (h : RewriteOf instructions atoms)
variable {o : InstructionOriginRef}

include h

theorem nodup : ((originsOf atoms).map (·.oldPC)).Nodup :=
  (h.perm.map _).nodup_iff.mpr (nodup_recordedOrigins instructions)

theorem oldPC_lt (ho : o ∈ originsOf atoms) : o.oldPC < instructions.length := by
  have hmem : o.oldPC ∈ (recordedOrigins instructions).map (·.oldPC) :=
    List.mem_map_of_mem (h.perm.mem_iff.mp ho)
  rw [map_oldPC_recordedOrigins] at hmem
  exact List.mem_range.mp hmem

theorem place {i : ℕ} {a : Atom} (hi : atoms[i]? = some a) (ho : o ∈ a.origins) :
    (planOf instructions atoms).oldToNew[o.oldPC]? = some (some i) := by
  have hmem : o ∈ originsOf atoms :=
    List.mem_flatMap.mpr ⟨a, List.mem_of_getElem? hi, ho⟩
  have hplace := foldl_recordOrigins_of_mem atoms 0 (List.replicate instructions.length none)
    h.nodup hi ho (by rw [List.length_replicate]; exact h.oldPC_lt hmem)
  rwa [Nat.zero_add] at hplace

theorem lt_of_before {first second : ℕ} (hbefore : Before atoms first second) :
    ∃ i j, i < j ∧ (planOf instructions atoms).oldToNew[first]? = some (some i) ∧
      (planOf instructions atoms).oldToNew[second]? = some (some j) := by
  obtain ⟨x, y, hsub, ⟨o, ho, rfl⟩, o', ho', rfl⟩ := hbefore
  obtain ⟨i, j, hij, hi, hj⟩ := getElem?_of_pair_sublist hsub
  exact ⟨i, j, hij, h.place hi ho, h.place hj ho'⟩

theorem opener (ho : o ∈ originsOf atoms) {p : BranchPredicate}
    (hp : p ∈ o.path) : ∃ (s : String) (i : ℕ) (a : Atom), instructions[p.ifPC]? = some s ∧
      (controlToken s = .if ∨ controlToken s = .notif) ∧
      (planOf instructions atoms).oldToNew[p.ifPC]? = some (some i) ∧ atoms[i]? = some a ∧
      controlToken a.encoding = controlToken s := by
  obtain ⟨outer, inner, hpath⟩ := List.append_of_mem hp
  obtain ⟨⟨s, hs, htoken⟩, hrecord⟩ := opened_of_mem (h.perm.mem_iff.mp ho) outer p inner hpath
  obtain ⟨a, ha, hmem⟩ := List.mem_flatMap.mp (h.perm.mem_iff.mpr hrecord)
  obtain ⟨i, hi⟩ := List.mem_iff_getElem?.mp ha
  have hfaithful := h.faithful a ha _ hmem
  rw [hs] at hfaithful
  exact ⟨s, i, a, hs, htoken, h.place hi hmem, hi, (Option.some.inj hfaithful).symm⟩

theorem normalizePredicate_eq (ho : o ∈ originsOf atoms) {p : BranchPredicate} (hp : p ∈ o.path) :
    normalizePredicate (planOf instructions atoms) instructions (atoms.map (·.encoding)) p =
      some (renumber (planOf instructions atoms).oldToNew p) := by
  obtain ⟨s, i, a, hs, htoken, hplace, hi, hsame⟩ := h.opener ho hp
  simp [normalizePredicate, renumber, hs, htoken, hplace, hi, hsame]

/-- The conditionals of a record are at increasing places. -/
theorem pairwise_lt (path : List BranchPredicate) (pc : ℕ)
    (ho : (⟨pc, path⟩ : InstructionOriginRef) ∈ originsOf atoms) :
    (path.map (renumber (planOf instructions atoms).oldToNew)).Pairwise
      fun p q => p.ifPC < q.ifPC := by
  induction path using List.reverseRecOn generalizing pc with
  | nil => exact .nil
  | append_singleton outer q ih =>
      -- the last conditional is itself recorded in the arms outside of it
      have hopened := opened_of_mem (h.perm.mem_iff.mp ho)
      obtain ⟨-, -, hrecord⟩ := opened_concat.mp hopened
      have hq := h.perm.mem_iff.mpr hrecord
      rw [List.map_append, List.pairwise_append]
      refine ⟨ih q.ifPC hq, List.pairwise_singleton _ _, fun p' hp' q' hq' => ?_⟩
      obtain ⟨p, hp, rfl⟩ := List.mem_map.mp hp'
      obtain rfl := List.mem_singleton.mp hq'
      obtain ⟨i, j, hij, hi, hj⟩ := h.lt_of_before (h.before _ hq p hp)
      simpa [renumber, hi, hj] using hij

theorem distinctRegions_eq (ho : o ∈ originsOf atoms) :
    distinctRegions (o.path.map (renumber (planOf instructions atoms).oldToNew)) = true := by
  have hlt := h.pairwise_lt o.path o.oldPC ho
  refine decide_eq_true ?_
  rw [List.Nodup, List.pairwise_map]
  exact hlt.imp fun hpq => Nat.ne_of_lt hpq

/-- **The arms in the plan of a row are renumbered without a failure.** -/
theorem normalizeBranchPaths_eq :
    normalizeBranchPaths (planOf instructions atoms) instructions (atoms.map (·.encoding)) =
      some (renumberedPlan instructions atoms) := by
  have horigin : ∀ a ∈ atoms, ∀ o ∈ a.origins,
      (do
        let path ← o.path.mapM (normalizePredicate (planOf instructions atoms) instructions
          (atoms.map (·.encoding)))
        if distinctRegions path then pure { o with path } else Option.none) =
      some (renumberOrigin (planOf instructions atoms).oldToNew o) := by
    intro a ha o ho
    have hmem : o ∈ originsOf atoms := List.mem_flatMap.mpr ⟨a, ha, ho⟩
    rw [List.mapM_eq_some_map fun p hp => h.normalizePredicate_eq hmem hp]
    simp only [Option.bind_eq_bind, Option.bind_some, h.distinctRegions_eq hmem, if_true]
    rfl
  have hatom : ∀ origins ∈ (planOf instructions atoms).newToOld,
      (do
        let origins ← origins.mapM fun origin => do
          let path ← origin.path.mapM (normalizePredicate (planOf instructions atoms) instructions
            (atoms.map (·.encoding)))
          if distinctRegions path then pure { origin with path } else Option.none
        pure (sortOrigins origins)) =
      some (sortOrigins (origins.map (renumberOrigin (planOf instructions atoms).oldToNew))) := by
    intro origins horigins
    obtain ⟨a, ha, rfl⟩ := List.mem_map.mp horigins
    rw [List.mapM_eq_some_map (horigin a ha)]
    rfl
  unfold normalizeBranchPaths
  rw [List.mapM_eq_some_map hatom]
  simp [renumberedPlan, planOf, flattenPlan]

end RewriteOf

/-! ### The check of the plan -/

/-- Among records of different instructions, those of one instruction are one. -/
theorem filter_oldPC_eq {origins : List InstructionOriginRef}
    (hnodup : (origins.map (·.oldPC)).Nodup) (ho : o ∈ origins) :
    (origins.filter fun origin => origin.oldPC == o.oldPC) = [o] := by
  induction origins with
  | nil => simp at ho
  | cons first origins ih =>
      rw [List.map_cons, List.nodup_cons] at hnodup
      rcases List.mem_cons.mp ho with rfl | ho
      · have hnone : (origins.filter fun origin => origin.oldPC == o.oldPC) = [] := by
          refine List.filter_eq_nil_iff.mpr fun origin horigin heq => ?_
          rw [beq_iff_eq] at heq
          exact hnodup.1 (heq ▸ List.mem_map_of_mem horigin)
        rw [List.filter_cons_of_pos (by simp), hnone]
      · have hne : first.oldPC ≠ o.oldPC := fun heq => hnodup.1 (heq ▸ List.mem_map_of_mem ho)
        rw [List.filter_cons_of_neg (by simpa using hne), ih hnodup.2 ho]

theorem perm_flatten_map (atoms : List Atom)
    (g : InstructionOriginRef → InstructionOriginRef) :
    (atoms.map fun a => sortOrigins (a.origins.map g)).flatten.Perm ((originsOf atoms).map g) := by
  induction atoms with
  | nil => exact .nil
  | cons a atoms ih =>
      rw [List.map_cons, List.flatten_cons, originsOf_cons, List.map_append]
      exact (perm_sortOrigins _).append ih

namespace RewriteOf

variable (h : RewriteOf instructions atoms)

include h

/-- **Every old instruction has one record in the plan**, with its arms renumbered. -/
theorem filter_newToOld {o : InstructionOriginRef} (ho : o ∈ recordedOrigins instructions) :
    ((renumberedPlan instructions atoms).newToOld.flatten.filter
        fun origin => origin.oldPC == o.oldPC) =
      [renumberOrigin (planOf instructions atoms).oldToNew o] := by
  have hperm := perm_flatten_map atoms (renumberOrigin (planOf instructions atoms).oldToNew)
  have hnodup : ((renumberedPlan instructions atoms).newToOld.flatten.map (·.oldPC)).Nodup := by
    refine (hperm.map _).nodup_iff.mpr ?_
    rw [List.map_map]
    exact h.nodup
  have hmem := hperm.mem_iff.mpr (List.mem_map_of_mem (h.perm.mem_iff.mpr ho))
  exact filter_oldPC_eq hnodup hmem

theorem exists_place {o : InstructionOriginRef} (ho : o ∈ recordedOrigins instructions) :
    ∃ (i : ℕ) (origins : List InstructionOriginRef),
      (planOf instructions atoms).oldToNew[o.oldPC]? = some (some i) ∧ i < atoms.length ∧
      (renumberedPlan instructions atoms).newToOld[i]? = some origins ∧
      renumberOrigin (planOf instructions atoms).oldToNew o ∈ origins := by
  obtain ⟨a, ha, hmem⟩ := List.mem_flatMap.mp (h.perm.mem_iff.mpr ho)
  obtain ⟨i, hi⟩ := List.mem_iff_getElem?.mp ha
  refine ⟨i, _, h.place hi hmem, (List.getElem?_eq_some_iff.mp hi).1, ?_,
    (perm_sortOrigins _).mem_iff.mpr (List.mem_map_of_mem hmem)⟩
  rw [renumberedPlan, List.getElem?_map, hi]
  rfl

theorem validOrigin_eq {i : ℕ} {a : Atom} (hi : atoms[i]? = some a) {o : InstructionOriginRef}
    (ho : o ∈ a.origins) :
    validOrigin (renumberedPlan instructions atoms) instructions (atoms.map (·.encoding)) i
      (renumberOrigin (planOf instructions atoms).oldToNew o) = true := by
  have hmem : o ∈ originsOf atoms := List.mem_flatMap.mpr ⟨a, List.mem_of_getElem? hi, ho⟩
  have hplace := h.place hi ho
  unfold validOrigin
  simp only [Bool.and_eq_true]
  have hlt : o.oldPC < instructions.length := h.oldPC_lt hmem
  refine ⟨⟨⟨decide_eq_true hlt, beq_iff_eq.mpr hplace⟩, List.all_eq_true.mpr ?_⟩,
    h.distinctRegions_eq hmem⟩
  intro p' hp'
  obtain ⟨p, hp, rfl⟩ := List.mem_map.mp hp'
  obtain ⟨s, j, b, -, htoken, hj, hb, hsame⟩ := h.opener hmem hp
  -- the conditional is in front of the instruction it encloses
  obtain ⟨j', i', hless, hj', hi'⟩ := h.lt_of_before (h.before o hmem p hp)
  obtain rfl : j' = j := by simpa [hj] using hj'.symm
  obtain rfl : i' = i := by simpa [hplace] using hi'.symm
  have hlen : j' < atoms.length := (List.getElem?_eq_some_iff.mp hb).1
  have hnew : (renumber (planOf instructions atoms).oldToNew p).ifPC = j' := by
    simp [renumber, hj]
  rw [hnew, List.getElem?_map, hb, List.length_map]
  rcases htoken with htoken | htoken <;> simp [hlen, hless, hsame, htoken]

/-- **The plan of a row passes its own check.** -/
theorem validate_eq :
    validateInstructionRewritePlan (renumberedPlan instructions atoms) instructions
      (atoms.map (·.encoding)) = true := by
  unfold validateInstructionRewritePlan
  simp only [Bool.and_eq_true]
  refine ⟨⟨⟨?_, ?_⟩, List.all_eq_true.mpr ?_⟩, List.all_eq_true.mpr ?_⟩
  · exact beq_iff_eq.mpr length_oldToNew_planOf
  · simp [renumberedPlan]
  · rintro ⟨origins, i⟩ hmem
    have hi := List.mem_zipIdx_iff_getElem?.mp hmem
    rw [renumberedPlan, List.getElem?_map, Option.map_eq_some_iff] at hi
    obtain ⟨a, ha, rfl⟩ := hi
    rw [Bool.and_eq_true, List.all_eq_true]
    constructor
    · rw [Bool.not_eq_true', List.isEmpty_eq_false_iff]
      intro (hnil : sortOrigins _ = [])
      have hperm := perm_sortOrigins
        (a.origins.map (renumberOrigin (planOf instructions atoms).oldToNew))
      rw [hnil] at hperm
      have hmapped := List.nil_perm.mp hperm
      exact h.nonempty a (List.mem_of_getElem? ha) (List.map_eq_nil_iff.mp hmapped)
    · intro o' ho'
      obtain ⟨o, ho, rfl⟩ := List.mem_map.mp ((perm_sortOrigins _).mem_iff.mp ho')
      exact h.validOrigin_eq ha ho
  · intro pc hpc
    rw [← map_oldPC_recordedOrigins] at hpc
    obtain ⟨o, ho, rfl⟩ := List.mem_map.mp hpc
    obtain ⟨i, origins, hplace, hlt, -, -⟩ := h.exists_place ho
    have hplace' : (renumberedPlan instructions atoms).oldToNew[o.oldPC]? = some (some i) := hplace
    rw [h.filter_newToOld ho, hplace']
    simpa using hlt

end RewriteOf

/-- **The optimiser takes the rewritten tree of every script that the parser accepts.** -/
theorem optimize_of_parse {nodes : List Node} (hparse : parse instructions options = some nodes) :
    (optimize instructions options).instructions = code (optimizeSequence nodes {}).1 ∧
      (optimize instructions options).rewritePlan =
        renumberedPlan instructions (flatten (optimizeSequence nodes {}).1) ∧
      (optimize instructions options).rewritePlanValid = true ∧
      (optimize instructions options).structurallyValid = true ∧
      (optimize instructions options).changed = (optimizeSequence nodes {}).2.changed := by
  have hrewrite := rewriteOf_optimizeSequence hparse {}
  have hnormalize := hrewrite.normalizeBranchPaths_eq
  have hvalidate := hrewrite.validate_eq
  unfold planOf at hnormalize
  unfold optimize
  simp only [hparse, hnormalize, hvalidate, if_true]
  exact ⟨rfl, trivial, trivial, trivial, trivial⟩

end AtomicProof.IfTail
