/-
Where the atoms of an optimised tree come from.

Every instruction of a script lies in arms of open conditionals.  The parser records these arms with
the instruction, and the optimiser moves the record along: an instruction that two arms share keeps
the records of both.  So an optimised tree has every record once, and the conditionals that a record
names stay in front of what they enclose.

Main definitions:

* `IfTail.enclosingArms` — the arms that enclose each instruction of a script;
* `IfTail.originsOf` — the records in a row of atoms;
* `IfTail.Before` — an old instruction that comes before another one in a row of atoms;
* `IfTail.Located` — a tree whose atoms carry the arms that enclose them.

Main results:

* `IfTail.parse_locate`, `IfTail.parse_located` — **the parser records the enclosing arms of every
  instruction**;
* `IfTail.perm_originsOf_optimizeSequence` — the optimised tree has the records of the tree;
* `IfTail.forall_optimizeSequence` — what merging two equivalent atoms preserves holds in it;
* `IfTail.before_optimizeSequence` — **a conditional stays in front of what it encloses**.
-/

import AtomicProof.IfTailParser

set_option autoImplicit false

namespace AtomicProof.IfTail

variable {options : StructuredIfTailOptions}

/-! ### The arms around an instruction -/

/-- The arms an instruction lies in, from the arms that are open before it: a marker of a
conditional lies outside of the arms it ends. -/
def ownArms (instruction : String) (arms : List BranchPredicate) : List BranchPredicate :=
  match controlToken instruction with
  | .else | .endif => arms.dropLast
  | _ => arms

/-- The arms that are open behind an instruction. -/
def armsBehind (pc : ℕ) (instruction : String) (arms : List BranchPredicate) :
    List BranchPredicate :=
  match controlToken instruction with
  | .if | .notif => arms ++ [⟨pc, .then⟩]
  | .else => arms.dropLast ++ (arms.getLast?.map fun p => { p with arm := .else }).toList
  | .endif => arms.dropLast
  | .none => arms

/-- The arms that enclose each instruction of a script, from the outermost one on. -/
def enclosingArms : ℕ → List BranchPredicate → List String → List (List BranchPredicate)
  | _, _, [] => []
  | pc, arms, instruction :: rest =>
      ownArms instruction arms :: enclosingArms (pc + 1) (armsBehind pc instruction arms) rest

/-- The atoms of a script, each with its arms. -/
def locate (options : StructuredIfTailOptions) :
    ℕ → List BranchPredicate → List String → List Atom
  | _, _, [] => []
  | pc, arms, instruction :: rest =>
      makeAtom instruction pc (ownArms instruction arms) options ::
        locate options (pc + 1) (armsBehind pc instruction arms) rest

@[simp] theorem length_enclosingArms (pc : ℕ) (arms : List BranchPredicate)
    (instructions : List String) :
    (enclosingArms pc arms instructions).length = instructions.length := by
  induction instructions generalizing pc arms with
  | nil => rfl
  | cons instruction rest ih => simp [enclosingArms, ih]

def originsOf (atoms : List Atom) : List InstructionOriginRef := atoms.flatMap (·.origins)

@[simp] theorem originsOf_nil : originsOf [] = [] := rfl

@[simp] theorem originsOf_cons (a : Atom) (atoms : List Atom) :
    originsOf (a :: atoms) = a.origins ++ originsOf atoms := rfl

@[simp] theorem originsOf_append (xs ys : List Atom) :
    originsOf (xs ++ ys) = originsOf xs ++ originsOf ys :=
  List.flatMap_append

theorem originsOf_locate (pc : ℕ) (arms : List BranchPredicate) (instructions : List String) :
    originsOf (locate options pc arms instructions) =
      ((enclosingArms pc arms instructions).zipIdx pc).map fun p => ⟨p.2, p.1⟩ := by
  induction instructions generalizing pc arms with
  | nil => rfl
  | cons instruction rest ih =>
      rw [locate, originsOf_cons, ih, enclosingArms, List.zipIdx_cons]
      rfl

section Scan

variable {s : String} {arms : List BranchPredicate}

theorem ownArms_of_none (h : controlToken s = .none) : ownArms s arms = arms := by
  unfold ownArms
  rw [h]

theorem ownArms_opener (h : controlToken s = .if ∨ controlToken s = .notif) :
    ownArms s arms = arms := by
  unfold ownArms
  rcases h with h | h <;> rw [h]

theorem ownArms_marker (h : controlToken s = .else ∨ controlToken s = .endif)
    (p : BranchPredicate) : ownArms s (arms ++ [p]) = arms := by
  unfold ownArms
  rcases h with h | h <;> simp [h]

theorem armsBehind_of_none (h : controlToken s = .none) (pc : ℕ) : armsBehind pc s arms = arms := by
  unfold armsBehind
  rw [h]

theorem armsBehind_opener (h : controlToken s = .if ∨ controlToken s = .notif) (pc : ℕ) :
    armsBehind pc s arms = arms ++ [⟨pc, .then⟩] := by
  unfold armsBehind
  rcases h with h | h <;> rw [h]

theorem armsBehind_else (h : controlToken s = .else) (pc : ℕ) (p : BranchPredicate) :
    armsBehind pc s (arms ++ [p]) = arms ++ [{ p with arm := .else }] := by
  unfold armsBehind
  simp [h]

theorem armsBehind_endif (h : controlToken s = .endif) (pc : ℕ) (p : BranchPredicate) :
    armsBehind pc s (arms ++ [p]) = arms := by
  unfold armsBehind
  simp [h]

end Scan

@[simp] theorem flatten_cons (n : Node) (ns : List Node) :
    flatten (n :: ns) = flattenNode n ++ flatten ns := by
  rw [flatten]

@[simp] theorem flatten_nil : flatten [] = [] := by
  rw [flatten]

theorem flatten_append (ms ns : List Node) : flatten (ms ++ ns) = flatten ms ++ flatten ns := by
  induction ms with
  | nil => rfl
  | cons m ms ih => rw [List.cons_append, flatten_cons, ih, flatten_cons, List.append_assoc]

/-- Reading on behind a call of the parser gives the atoms that are left. -/
theorem parseSequence_locate : ∀ (fuel pc : ℕ) (input : List String)
    (arms : List BranchPredicate) (p : Parsed),
    parseSequence options fuel pc input arms = some p →
      locate options pc arms input = flatten p.nodes ++ locate options p.index arms p.rest
  | 0, _, _, _, _, h => nomatch (show none = some _ from h)
  | fuel + 1, pc, [], arms, p, h => by
      obtain rfl := Option.some.inj h
      rfl
  | fuel + 1, pc, s :: rest, arms, p, h => by
      rcases parseSequence_cons h with ⟨-, rfl⟩ | ⟨htoken, tail, htail, rfl⟩ |
        ⟨htoken, thenArm, stop, after, tail, hthen, hstop, hend, htail, rfl⟩ |
        ⟨htoken, thenArm, stop, after, elseArm, close, afterClose, tail, hthen, hstop, helse,
          helseArm, hclose, hend, htail, rfl⟩
      · rfl
      · have hrest := parseSequence_locate fuel _ _ _ _ htail
        rw [locate, armsBehind_of_none htoken, hrest, ownArms_of_none htoken]
        rfl
      · have hbody := parseSequence_locate fuel _ _ _ _ hthen
        have hrest := parseSequence_locate fuel _ _ _ _ htail
        rw [locate, armsBehind_opener htoken, hbody, hstop, locate, armsBehind_endif hend, hrest,
          ownArms_opener htoken, ownArms_marker (.inr hend)]
        simp [flattenNode]
      · have hbody := parseSequence_locate fuel _ _ _ _ hthen
        have hbody' := parseSequence_locate fuel _ _ _ _ helseArm
        have hrest := parseSequence_locate fuel _ _ _ _ htail
        rw [locate, armsBehind_opener htoken, hbody, hstop, locate, armsBehind_else helse, hbody',
          hclose, locate, armsBehind_endif hend, hrest, ownArms_opener htoken,
          ownArms_marker (.inl helse), ownArms_marker (.inr hend)]
        simp [flattenNode]

/-- **The parser records the enclosing arms of every instruction.** -/
theorem parse_locate {instructions : List String} {nodes : List Node}
    (h : parse instructions options = some nodes) :
    flatten nodes = locate options 0 [] instructions := by
  obtain ⟨p, hp, hrest, rfl⟩ := parse_eq_some h
  have hlocate := parseSequence_locate _ _ _ _ _ hp
  rw [hrest, locate, List.append_nil] at hlocate
  exact hlocate.symm

/-! ### Merged origins -/

theorem perm_sortOrigins (origins : List InstructionOriginRef) :
    (sortOrigins origins).Perm origins :=
  List.perm_insertionSort _ _

theorem mem_uniqueOrigins_iff {origins : List InstructionOriginRef} {o : InstructionOriginRef} :
    o ∈ uniqueOrigins origins ↔ o ∈ origins := by
  induction origins with
  | nil => rfl
  | cons origin rest ih =>
      cases rest with
      | nil => rfl
      | cons next rest =>
          rw [uniqueOrigins]
          split_ifs with heq
          · rw [ih, heq]
            simp
          · rw [List.mem_cons, ih, List.mem_cons, List.mem_cons, List.mem_cons]

theorem uniqueOrigins_of_nodup {origins : List InstructionOriginRef} (h : origins.Nodup) :
    uniqueOrigins origins = origins := by
  induction origins with
  | nil => rfl
  | cons origin rest ih =>
      cases rest with
      | nil => rfl
      | cons next rest =>
          obtain ⟨hnotin, hrest⟩ := List.nodup_cons.mp h
          have hne : origin ≠ next := fun heq => hnotin (heq ▸ List.mem_cons_self)
          rw [uniqueOrigins, if_neg hne, ih hrest]

theorem mem_origins_mergeOriginsAtom {k d : Atom} {o : InstructionOriginRef} :
    o ∈ (mergeOriginsAtom k d).origins ↔ o ∈ k.origins ∨ o ∈ d.origins := by
  rw [mergeOriginsAtom, mem_uniqueOrigins_iff, (perm_sortOrigins _).mem_iff, List.mem_append]

theorem perm_origins_mergeOriginsAtom {k d : Atom} (h : (k.origins ++ d.origins).Nodup) :
    (mergeOriginsAtom k d).origins.Perm (k.origins ++ d.origins) := by
  have hsorted := perm_sortOrigins (k.origins ++ d.origins)
  rw [mergeOriginsAtom, uniqueOrigins_of_nodup (hsorted.nodup_iff.mpr h)]
  exact hsorted

/-- Two rows merged atom by atom have the origins of both rows. -/
theorem perm_originsOf_zipWith {ks ds : List Atom} (hlen : ks.length = ds.length)
    (h : (originsOf ks ++ originsOf ds).Nodup) :
    (originsOf (List.zipWith mergeOriginsAtom ks ds)).Perm (originsOf ks ++ originsOf ds) := by
  induction ks generalizing ds with
  | nil =>
      obtain rfl := List.length_eq_zero_iff.mp hlen.symm
      exact .nil
  | cons k ks ih =>
      cases ds with
      | nil => simp at hlen
      | cons d ds =>
          -- the origins of the two first atoms are brought together
          have hswap : (originsOf (k :: ks) ++ originsOf (d :: ds)).Perm
              ((k.origins ++ d.origins) ++ (originsOf ks ++ originsOf ds)) := by
            simp only [originsOf_cons, List.append_assoc]
            exact List.Perm.append_left _ (List.perm_append_comm_assoc _ _ _)
          obtain ⟨hhead, htail, -⟩ := List.nodup_append.mp (hswap.nodup_iff.mp h)
          rw [List.zipWith_cons_cons, originsOf_cons]
          exact ((perm_origins_mergeOriginsAtom hhead).append
            (ih (by simpa using hlen) htail)).trans hswap.symm

/-! ### The common tail, atom by atom -/

theorem controlToken_of_equivalentAtom {a b : Atom} (h : equivalentAtom a b = true) :
    controlToken a.encoding = controlToken b.encoding := by
  unfold equivalentAtom at h
  split_ifs at h with hpure
  · rw [Bool.and_eq_true] at hpure
    rw [beq_iff_eq] at h
    simp only [controlToken, isSingleOpcode, hpure.1, hpure.2, h]
  · rw [beq_iff_eq] at h
    rw [h]

mutual

/-- Equivalent nodes have atoms that are equivalent one by one. -/
theorem equivalentAtoms_flattenNode : ∀ n n' : Node, equivalent n n' = true →
    List.Forall₂ (fun a b => equivalentAtom a b = true) (flattenNode n) (flattenNode n') ∧
      flattenNode (mergeOrigins n n') =
        List.zipWith mergeOriginsAtom (flattenNode n) (flattenNode n')
  | .atom a, .atom b, h => ⟨.cons h .nil, rfl⟩
  | .ifRegion o t m f e, .ifRegion o' t' m' f' e', h => by
      unfold equivalent at h
      simp only [Bool.and_eq_true] at h
      obtain ⟨⟨⟨⟨ho, hm⟩, he⟩, ht⟩, hf⟩ := h
      obtain ⟨ht, hmt⟩ := equivalentAtoms_flatten t t' ht
      obtain ⟨hf, hmf⟩ := equivalentAtoms_flatten f f' hf
      have happend := @List.rel_append _ _ fun a b : Atom => equivalentAtom a b = true
      cases m with
      | none =>
          cases m' with
          | none =>
              refine ⟨happend (happend (.cons ho ht) .nil) (.cons he .nil), ?_⟩
              simp only [mergeOrigins, flattenNode, hmt, List.cons_append, List.append_nil,
                List.zipWith_cons_cons]
              rw [List.zipWith_append ht.length_eq]
              rfl
          | some m' => simp at hm
      | some m =>
          cases m' with
          | none => simp at hm
          | some m' =>
              refine ⟨happend (happend (.cons ho ht) (.cons hm hf)) (.cons he .nil), ?_⟩
              simp only [mergeOrigins, flattenNode, hmt, hmf, List.cons_append, List.append_assoc,
                List.zipWith_cons_cons]
              rw [List.zipWith_append ht.length_eq, List.zipWith_cons_cons,
                List.zipWith_append hf.length_eq]
              rfl
  | .atom _, .ifRegion _ _ _ _ _, h =>
      Bool.noConfusion ((equivalent_atom_ifRegion ..).symm.trans h)
  | .ifRegion _ _ _ _ _, .atom _, h =>
      Bool.noConfusion ((equivalent_ifRegion_atom ..).symm.trans h)

theorem equivalentAtoms_flatten : ∀ ns ns' : List Node, equivalentSequence ns ns' = true →
    List.Forall₂ (fun a b => equivalentAtom a b = true) (flatten ns) (flatten ns') ∧
      flatten (mergeOriginsSequence ns ns') =
        List.zipWith mergeOriginsAtom (flatten ns) (flatten ns')
  | [], [], _ => ⟨.nil, rfl⟩
  | n :: ns, n' :: ns', h => by
      rw [equivalentSequence_cons_cons, Bool.and_eq_true] at h
      obtain ⟨hn, hmn⟩ := equivalentAtoms_flattenNode n n' h.1
      obtain ⟨hns, hmns⟩ := equivalentAtoms_flatten ns ns' h.2
      refine ⟨by simpa using List.rel_append hn hns, ?_⟩
      rw [mergeOriginsSequence_cons_cons, flatten_cons, flatten_cons, flatten_cons, hmn, hmns,
        List.zipWith_append hn.length_eq]
  | [], _ :: _, h => Bool.noConfusion ((equivalentSequence_nil_cons ..).symm.trans h)
  | _ :: _, [], h => Bool.noConfusion ((equivalentSequence_cons_nil ..).symm.trans h)

end

theorem flatten_zipWith_mergeOrigins {ts fs : List Node}
    (h : List.Forall₂ (fun m n => equivalent m n = true) ts fs) :
    List.Forall₂ (fun a b => equivalentAtom a b = true) (flatten ts) (flatten fs) ∧
      flatten (List.zipWith mergeOrigins ts fs) =
        List.zipWith mergeOriginsAtom (flatten ts) (flatten fs) := by
  induction h with
  | nil => exact ⟨.nil, rfl⟩
  | @cons m n ts fs hmn _ ih =>
      obtain ⟨hn, hmerge⟩ := equivalentAtoms_flattenNode m n hmn
      refine ⟨by simpa using List.rel_append hn ih.1, ?_⟩
      rw [List.zipWith_cons_cons, flatten_cons, flatten_cons, flatten_cons, hmerge, ih.2,
        List.zipWith_append hn.length_eq]

theorem flatten_extractCommonTail (t f : List Node) (c : Counters) :
    ∃ ts fs, flatten t = flatten (extractCommonTail t f c).thenBody ++ ts ∧
      flatten f = flatten (extractCommonTail t f c).elseBody ++ fs ∧
      List.Forall₂ (fun a b => equivalentAtom a b = true) ts fs ∧
      flatten (extractCommonTail t f c).commonTail = List.zipWith mergeOriginsAtom ts fs := by
  rcases extractCommonTail_cases t f c with ⟨h1, h2, h3⟩ | ⟨-, -, i, j, htail, h1, h2, h3⟩
  · exact ⟨[], [], by simp [h1], by simp [h2], .nil, by simp [h3]⟩
  · obtain ⟨heq, hmerge⟩ := flatten_zipWith_mergeOrigins htail
    refine ⟨flatten (t.drop i), flatten (f.drop j), ?_, ?_, heq, by rw [h3, hmerge]⟩
    · rw [h1, ← flatten_append, List.take_append_drop]
    · rw [h2, ← flatten_append, List.take_append_drop]

/-! ### The atoms of the optimised tree -/

theorem flatten_optimizeSequence_cons (n : Node) (ns : List Node) (c : Counters) :
    flatten (optimizeSequence (n :: ns) c).1 =
      flatten (optimizeNode n c).1 ++
        flatten (optimizeSequence ns (optimizeNode n c).2).1 :=
  flatten_append _ _

theorem flatten_optimizeNode_if (o e : Atom) (t f : List Node) (c : Counters) :
    flatten (optimizeNode (.ifRegion o t none f e) c).1 =
      o :: flatten (optimizeSequence t c).1 ++ [e] := by
  simp [optimizeNode, flattenNode]

/-- The atoms of a conditional with two arms behind the rewriting: what stays in the arms, and the
common tail behind them. -/
theorem flatten_optimizeNode_ifElse (o m e : Atom) (t f : List Node) (c : Counters) :
    ∃ as bs ts fs, flatten (optimizeSequence t c).1 = as ++ ts ∧
      flatten (optimizeSequence f (optimizeSequence t c).2).1 = bs ++ fs ∧
      List.Forall₂ (fun a b => equivalentAtom a b = true) ts fs ∧
      flatten (optimizeNode (.ifRegion o t (some m) f e) c).1 =
        o :: as ++ m :: bs ++ [e] ++ List.zipWith mergeOriginsAtom ts fs := by
  obtain ⟨ts, fs, ht, hf, heq, htail⟩ := flatten_extractCommonTail (optimizeSequence t c).1
    (optimizeSequence f (optimizeSequence t c).2).1
    (optimizeSequence f (optimizeSequence t c).2).2
  refine ⟨_, _, ts, fs, ht, hf, heq, ?_⟩
  rw [← htail]
  simp [optimizeNode, flattenNode]

section Preserved

variable {P : Atom → Prop}

theorem forall_zipWith_mergeOriginsAtom
    (hmerge : ∀ k d, P k → P d → equivalentAtom k d = true → P (mergeOriginsAtom k d))
    {ts fs : List Atom} (h : List.Forall₂ (fun a b => equivalentAtom a b = true) ts fs)
    (hts : ∀ a ∈ ts, P a) (hfs : ∀ a ∈ fs, P a) :
    ∀ a ∈ List.zipWith mergeOriginsAtom ts fs, P a := by
  induction h with
  | nil => simp
  | @cons k d ts fs hkd _ ih =>
      intro a ha
      rw [List.zipWith_cons_cons, List.mem_cons] at ha
      rcases ha with rfl | ha
      · exact hmerge k d (hts k List.mem_cons_self) (hfs d List.mem_cons_self) hkd
      · exact ih (fun a ha => hts a (List.mem_cons_of_mem _ ha))
          (fun a ha => hfs a (List.mem_cons_of_mem _ ha)) a ha

mutual

/-- What merging two equivalent atoms preserves holds in the optimised node. -/
theorem forall_optimizeNode
    (hmerge : ∀ k d, P k → P d → equivalentAtom k d = true → P (mergeOriginsAtom k d)) :
    ∀ (n : Node) (c : Counters), (∀ a ∈ flattenNode n, P a) →
      ∀ a ∈ flatten (optimizeNode n c).1, P a
  | .atom a, c, h => by simpa [optimizeNode, flattenNode] using h
  | .ifRegion o t none f e, c, h => by
      have ht := forall_optimizeSequence hmerge t c fun a ha => h a (by simp [flattenNode, ha])
      intro a ha
      rw [flatten_optimizeNode_if] at ha
      simp only [List.cons_append, List.mem_cons, List.mem_append, List.not_mem_nil,
        or_false] at ha
      rcases ha with rfl | ha | rfl
      · exact h a (by simp [flattenNode])
      · exact ht a ha
      · exact h a (by simp [flattenNode])
  | .ifRegion o t (some m) f e, c, h => by
      have ht := forall_optimizeSequence hmerge t c fun a ha => h a (by simp [flattenNode, ha])
      have hf := forall_optimizeSequence hmerge f (optimizeSequence t c).2 fun a ha =>
        h a (by simp [flattenNode, ha])
      obtain ⟨as, bs, ts, fs, hts, hfs, heq, hflat⟩ := flatten_optimizeNode_ifElse o m e t f c
      rw [hts] at ht
      rw [hfs] at hf
      have htail := forall_zipWith_mergeOriginsAtom hmerge heq
        (fun a ha => ht a (List.mem_append_right _ ha))
        (fun a ha => hf a (List.mem_append_right _ ha))
      intro a ha
      rw [hflat] at ha
      simp only [List.cons_append, List.append_assoc, List.mem_cons, List.mem_append,
        List.not_mem_nil, false_or] at ha
      rcases ha with rfl | ha | rfl | ha | rfl | ha
      · exact h a (by simp [flattenNode])
      · exact ht a (List.mem_append_left _ ha)
      · exact h a (by simp [flattenNode])
      · exact hf a (List.mem_append_left _ ha)
      · exact h a (by simp [flattenNode])
      · exact htail a ha

theorem forall_optimizeSequence
    (hmerge : ∀ k d, P k → P d → equivalentAtom k d = true → P (mergeOriginsAtom k d)) :
    ∀ (ns : List Node) (c : Counters), (∀ a ∈ flatten ns, P a) →
      ∀ a ∈ flatten (optimizeSequence ns c).1, P a
  | [], c, _ => by simp [optimizeSequence]
  | n :: ns, c, h => by
      have hn := forall_optimizeNode hmerge n c fun a ha => h a (by simp [ha])
      have hns := forall_optimizeSequence hmerge ns (optimizeNode n c).2 fun a ha =>
        h a (by simp [ha])
      intro a ha
      rw [flatten_optimizeSequence_cons, List.mem_append] at ha
      exact ha.elim (hn a) (hns a)

end

end Preserved

mutual

/-- The optimised node has the origins of the node. -/
theorem perm_originsOf_optimizeNode : ∀ (n : Node) (c : Counters),
    (originsOf (flattenNode n)).Nodup →
      (originsOf (flatten (optimizeNode n c).1)).Perm (originsOf (flattenNode n))
  | .atom a, c, _ => by simp [optimizeNode, flattenNode]
  | .ifRegion o t none f e, c, h => by
      have hnode : flattenNode (.ifRegion o t none f e) = o :: flatten t ++ [e] := by
        simp [flattenNode]
      rw [hnode, List.cons_append, originsOf_cons, originsOf_append] at h
      have ht := perm_originsOf_optimizeSequence t c h.of_append_right.of_append_left
      rw [flatten_optimizeNode_if, hnode]
      simp only [List.cons_append, originsOf_cons, originsOf_append]
      exact (ht.append_right _).append_left _
  | .ifRegion o t (some m) f e, c, h => by
      have hnode : flattenNode (.ifRegion o t (some m) f e) =
          o :: (flatten t ++ m :: (flatten f ++ [e])) := by
        simp [flattenNode]
      rw [hnode] at h ⊢
      simp only [originsOf_cons, originsOf_append, originsOf_nil] at h ⊢
      have hbody := h.of_append_right
      have ht := perm_originsOf_optimizeSequence t c hbody.of_append_left
      have hf := perm_originsOf_optimizeSequence f (optimizeSequence t c).2
        hbody.of_append_right.of_append_right.of_append_left
      obtain ⟨as, bs, ts, fs, hts, hfs, heq, hflat⟩ := flatten_optimizeNode_ifElse o m e t f c
      rw [hts, originsOf_append] at ht
      rw [hfs, originsOf_append] at hf
      -- the two tails have no origin in common
      have hdisjoint : (originsOf ts ++ originsOf fs).Nodup := by
        have hboth : ((originsOf as ++ originsOf ts) ++ (originsOf bs ++ originsOf fs)).Nodup := by
          refine (ht.append hf).nodup_iff.mpr (hbody.sublist ?_)
          refine List.Sublist.append (List.Sublist.refl _) ?_
          exact (List.sublist_append_left _ _).trans (List.sublist_append_right _ _)
        refine hboth.sublist (List.Sublist.append ?_ ?_)
        · exact List.sublist_append_right _ _
        · exact List.sublist_append_right _ _
      have htail := perm_originsOf_zipWith heq.length_eq hdisjoint
      rw [hflat]
      simp only [List.cons_append, List.append_assoc, originsOf_cons, originsOf_append,
        List.nil_append, List.append_nil]
      refine List.Perm.append_left _ ?_
      -- the tails move back into the arms they come from
      have hmove : (originsOf as ++ (m.origins ++ (originsOf bs ++ (e.origins ++
            (originsOf ts ++ originsOf fs))))).Perm
          ((originsOf as ++ originsOf ts) ++ (m.origins ++ ((originsOf bs ++ originsOf fs) ++
            e.origins))) := by
        rw [List.perm_iff_count]
        intro origin
        simp only [List.count_append]
        omega
      refine List.Perm.trans ?_ (hmove.trans (ht.append (List.Perm.append_left _
        (hf.append_right _))))
      exact List.Perm.append_left _ (List.Perm.append_left _ (List.Perm.append_left _
        (List.Perm.append_left _ htail)))

theorem perm_originsOf_optimizeSequence : ∀ (ns : List Node) (c : Counters),
    (originsOf (flatten ns)).Nodup →
      (originsOf (flatten (optimizeSequence ns c).1)).Perm (originsOf (flatten ns))
  | [], c, _ => by simp [optimizeSequence]
  | n :: ns, c, h => by
      rw [flatten_cons, originsOf_append] at h
      rw [flatten_optimizeSequence_cons, flatten_cons, originsOf_append, originsOf_append]
      exact (perm_originsOf_optimizeNode n c h.of_append_left).append
        (perm_originsOf_optimizeSequence ns _ h.of_append_right)

end

/-! ### Order in the optimised tree -/

/-- The old instruction `first` comes before the old instruction `second` in a row of atoms. -/
def Before (atoms : List Atom) (first second : ℕ) : Prop :=
  ∃ x y, [x, y].Sublist atoms ∧ (∃ o ∈ x.origins, o.oldPC = first) ∧
    ∃ o ∈ y.origins, o.oldPC = second

/-- The second row holds the atoms of the first one in their order, with more origins. -/
def Carried (xs ys : List Atom) : Prop :=
  List.SublistForall₂ (fun x y : Atom => x.origins ⊆ y.origins) xs ys

namespace Carried

variable {xs ys xs' ys' : List Atom}

theorem append (h : Carried xs ys) (h' : Carried xs' ys') : Carried (xs ++ xs') (ys ++ ys') := by
  obtain ⟨zs, hzs, hsub⟩ := List.sublistForall₂_iff.mp h
  obtain ⟨zs', hzs', hsub'⟩ := List.sublistForall₂_iff.mp h'
  have happend := @List.rel_append _ _ fun x y : Atom => x.origins ⊆ y.origins
  exact List.sublistForall₂_iff.mpr ⟨zs ++ zs', happend hzs hzs', hsub.append hsub'⟩

theorem of_sublist (h : xs.Sublist ys) : Carried xs ys :=
  List.sublistForall₂_iff.mpr ⟨xs, List.forall₂_same.mpr fun _ _ => List.Subset.refl _, h⟩

theorem trans_sublist (h : Carried xs ys) (hsub : ys.Sublist ys') : Carried xs ys' := by
  obtain ⟨zs, hzs, hsub'⟩ := List.sublistForall₂_iff.mp h
  exact List.sublistForall₂_iff.mpr ⟨zs, hzs, hsub'.trans hsub⟩

theorem mem_originsOf (h : Carried xs ys) {o : InstructionOriginRef} (ho : o ∈ originsOf xs) :
    o ∈ originsOf ys := by
  induction h with
  | nil => simp at ho
  | cons hxy _ ih =>
      rw [originsOf_cons, List.mem_append] at ho ⊢
      exact ho.imp (fun h => hxy h) ih
  | cons_right _ ih =>
      rw [originsOf_cons]
      exact List.mem_append_right _ (ih ho)

/-- What comes first in a row comes first in a row that holds it. -/
theorem before (h : Carried xs ys) {first second : ℕ} (hbefore : Before xs first second) :
    Before ys first second := by
  obtain ⟨x, y, hsub, ⟨o, ho, hfirst⟩, o', ho', hsecond⟩ := hbefore
  have htrans : IsTrans Atom fun x y : Atom => x.origins ⊆ y.origins :=
    ⟨fun _ _ _ h h' o ho => h' (h ho)⟩
  have hpair : Carried [x, y] ys := List.SublistForall₂.is_trans.trans _ _ _ (of_sublist hsub) h
  obtain ⟨zs, hzs, hsub'⟩ := List.sublistForall₂_iff.mp hpair
  cases hzs with
  | cons hx hrest =>
      cases hrest with
      | cons hy hnil =>
          cases hnil
          exact ⟨_, _, hsub', ⟨o, hx ho, hfirst⟩, o', hy ho', hsecond⟩

end Carried

theorem forall₂_zipWith_mergeOriginsAtom {ts fs : List Atom}
    (h : List.Forall₂ (fun a b => equivalentAtom a b = true) ts fs) :
    Carried ts (List.zipWith mergeOriginsAtom ts fs) ∧
      Carried fs (List.zipWith mergeOriginsAtom ts fs) := by
  induction h with
  | nil => exact ⟨.nil, .nil⟩
  | cons _ _ ih =>
      refine ⟨.cons (fun o ho => ?_) ih.1, .cons (fun o ho => ?_) ih.2⟩
      · exact mem_origins_mergeOriginsAtom.mpr (.inl ho)
      · exact mem_origins_mergeOriginsAtom.mpr (.inr ho)

theorem before_cons {a : Atom} {o o' : InstructionOriginRef} {atoms : List Atom}
    (ho : o ∈ a.origins) (ho' : o' ∈ originsOf atoms) : Before (a :: atoms) o.oldPC o'.oldPC := by
  obtain ⟨b, hb, ho'⟩ := List.mem_flatMap.mp ho'
  exact ⟨a, b, .cons_cons a (List.singleton_sublist.mpr hb), ⟨o, ho, rfl⟩, o', ho', rfl⟩

/-- An atom with one origin, in the given arms. -/
def LocatedAtom (arms : List BranchPredicate) (a : Atom) : Prop := ∃ pc, a.origins = [⟨pc, arms⟩]

mutual

/-- A node whose atoms carry the arms that enclose them, inside of `arms`. -/
def Located (arms : List BranchPredicate) : Node → Prop
  | .atom a => LocatedAtom arms a
  | .ifRegion o t m f e =>
      ∃ pc, o.origins = [⟨pc, arms⟩] ∧ LocatedSequence (arms ++ [⟨pc, .then⟩]) t ∧
        (∀ marker ∈ m, LocatedAtom arms marker) ∧
        LocatedSequence (arms ++ [⟨pc, .else⟩]) f ∧ LocatedAtom arms e

def LocatedSequence (arms : List BranchPredicate) : List Node → Prop
  | [] => True
  | node :: rest => Located arms node ∧ LocatedSequence arms rest

end

theorem locatedAtom_makeAtom (s : String) (pc : ℕ) (arms : List BranchPredicate) :
    LocatedAtom arms (makeAtom s pc arms options) :=
  ⟨pc, rfl⟩

theorem parseSequence_located : ∀ (fuel pc : ℕ) (input : List String)
    (arms : List BranchPredicate) (p : Parsed),
    parseSequence options fuel pc input arms = some p → LocatedSequence arms p.nodes
  | 0, _, _, _, _, h => nomatch (show none = some _ from h)
  | fuel + 1, pc, [], arms, p, h => by
      obtain rfl := Option.some.inj h
      exact trivial
  | fuel + 1, pc, s :: rest, arms, p, h => by
      rcases parseSequence_cons h with ⟨-, rfl⟩ | ⟨htoken, tail, htail, rfl⟩ |
        ⟨htoken, thenArm, stop, after, tail, hthen, hstop, hend, htail, rfl⟩ |
        ⟨htoken, thenArm, stop, after, elseArm, close, afterClose, tail, hthen, hstop, helse,
          helseArm, hclose, hend, htail, rfl⟩
      · exact trivial
      · exact ⟨locatedAtom_makeAtom .., parseSequence_located fuel _ _ _ _ htail⟩
      · refine ⟨⟨pc, rfl, parseSequence_located fuel _ _ _ _ hthen, by simp, trivial, ?_⟩,
          parseSequence_located fuel _ _ _ _ htail⟩
        exact locatedAtom_makeAtom ..
      · refine ⟨⟨pc, rfl, parseSequence_located fuel _ _ _ _ hthen, ?_,
          parseSequence_located fuel _ _ _ _ helseArm, locatedAtom_makeAtom ..⟩,
          parseSequence_located fuel _ _ _ _ htail⟩
        intro marker hmarker
        obtain rfl := Option.some.inj hmarker
        exact locatedAtom_makeAtom ..

theorem parse_located {instructions : List String} {nodes : List Node}
    (h : parse instructions options = some nodes) : LocatedSequence [] nodes := by
  obtain ⟨p, hp, -, rfl⟩ := parse_eq_some h
  exact parseSequence_located _ _ _ _ _ hp

/-- An arm that is carried behind its opener keeps the order of its conditionals, and the opener
comes before all of it. -/
theorem before_of_arm {opener : Atom} {pc : ℕ} {arms : List BranchPredicate}
    (hopener : opener.origins = [⟨pc, arms⟩]) {body row : List Atom} {arm : BranchArm}
    {o : InstructionOriginRef} {p : BranchPredicate}
    (h : (p ∈ arms ∨ p = ⟨pc, arm⟩) ∨ Before body p.ifPC o.oldPC) (hcarried : Carried body row)
    (ho : o ∈ originsOf body) : p ∈ arms ∨ Before (opener :: row) p.ifPC o.oldPC := by
  rcases h with (h | rfl) | h
  · exact .inl h
  · have hmem : (⟨pc, arms⟩ : InstructionOriginRef) ∈ opener.origins := by
      rw [hopener]
      exact List.mem_singleton.mpr rfl
    exact .inr (before_cons hmem (hcarried.mem_originsOf ho))
  · exact .inr ((hcarried.trans_sublist (List.sublist_cons_self _ _)).before h)

mutual

/-- In the optimised node a conditional that encloses an instruction comes before it. -/
theorem before_optimizeNode : ∀ (n : Node) (c : Counters) (arms : List BranchPredicate),
    Located arms n → (originsOf (flattenNode n)).Nodup →
      ∀ o ∈ originsOf (flattenNode n), ∀ p ∈ o.path,
        p ∈ arms ∨ Before (flatten (optimizeNode n c).1) p.ifPC o.oldPC
  | .atom a, c, arms, h, _ => by
      obtain ⟨pc, hpc⟩ := h
      intro o ho p hp
      simp only [flattenNode, originsOf_cons, originsOf_nil, List.append_nil, hpc,
        List.mem_singleton] at ho
      exact .inl (by simpa [ho] using hp)
  | .ifRegion o t none f e, c, arms, h, hnodup => by
      obtain ⟨pc, hpc, ht, -, -, ⟨pc', hpc'⟩⟩ := h
      have hnode : flattenNode (.ifRegion o t none f e) = o :: (flatten t ++ [e]) := by
        simp [flattenNode]
      rw [hnode, originsOf_cons, originsOf_append] at hnodup
      have hnodupt := hnodup.of_append_right.of_append_left
      have hperm := perm_originsOf_optimizeSequence t c hnodupt
      intro origin ho p hp
      rw [flatten_optimizeNode_if]
      simp only [hnode, originsOf_cons, originsOf_append, originsOf_nil, List.append_nil, hpc,
        hpc', List.mem_append, List.mem_singleton] at ho
      rcases ho with rfl | ho | rfl
      · exact .inl hp
      · have harm := before_optimizeSequence t c _ ht hnodupt origin ho p hp
        exact before_of_arm hpc (by simpa using harm) (.of_sublist (List.sublist_append_left _ _))
          (hperm.mem_iff.mpr ho)
      · exact .inl hp
  | .ifRegion o t (some m) f e, c, arms, h, hnodup => by
      obtain ⟨pc, hpc, ht, hm, hf, ⟨pc', hpc'⟩⟩ := h
      obtain ⟨pcm, hpcm⟩ := hm m rfl
      have hnode : flattenNode (.ifRegion o t (some m) f e) =
          o :: (flatten t ++ m :: (flatten f ++ [e])) := by
        simp [flattenNode]
      rw [hnode, originsOf_cons, originsOf_append, originsOf_cons, originsOf_append] at hnodup
      have hnodupt := hnodup.of_append_right.of_append_left
      have hnodupf := hnodup.of_append_right.of_append_right.of_append_right.of_append_left
      have hpermt := perm_originsOf_optimizeSequence t c hnodupt
      have hpermf := perm_originsOf_optimizeSequence f (optimizeSequence t c).2 hnodupf
      obtain ⟨as, bs, ts, fs, hts, hfs, heq, hflat⟩ := flatten_optimizeNode_ifElse o m e t f c
      obtain ⟨hcarriedt, hcarriedf⟩ := forall₂_zipWith_mergeOriginsAtom heq
      have hrow : flatten (optimizeNode (.ifRegion o t (some m) f e) c).1 =
          o :: (as ++ (m :: bs ++ [e] ++ List.zipWith mergeOriginsAtom ts fs)) := by
        simp [hflat]
      -- what is left of an arm keeps its place, and its tail comes behind
      have hthen : Carried (flatten (optimizeSequence t c).1)
          (as ++ (m :: bs ++ [e] ++ List.zipWith mergeOriginsAtom ts fs)) := by
        rw [hts]
        exact (Carried.of_sublist (List.Sublist.refl as)).append
          (hcarriedt.trans_sublist (List.sublist_append_right _ _))
      have helse : Carried (flatten (optimizeSequence f (optimizeSequence t c).2).1)
          (as ++ (m :: bs ++ [e] ++ List.zipWith mergeOriginsAtom ts fs)) := by
        rw [hfs]
        refine Carried.trans_sublist ?_ (List.sublist_append_right _ _)
        refine Carried.append (.of_sublist ?_) hcarriedf
        exact ((List.sublist_cons_self m bs).trans (List.sublist_append_left _ _))
      intro origin ho p hp
      rw [hrow]
      simp only [hnode, originsOf_cons, originsOf_append, originsOf_nil, List.append_nil, hpc,
        hpc', hpcm, List.mem_append, List.mem_singleton] at ho
      rcases ho with rfl | ho | rfl | ho | rfl
      · exact .inl hp
      · have harm := before_optimizeSequence t c _ ht hnodupt origin ho p hp
        exact before_of_arm hpc (by simpa using harm) hthen (hpermt.mem_iff.mpr ho)
      · exact .inl hp
      · have harm := before_optimizeSequence f (optimizeSequence t c).2 _ hf hnodupf origin ho p hp
        exact before_of_arm hpc (by simpa using harm) helse (hpermf.mem_iff.mpr ho)
      · exact .inl hp

/-- In the optimised sequence a conditional that encloses an instruction comes before it. -/
theorem before_optimizeSequence : ∀ (ns : List Node) (c : Counters) (arms : List BranchPredicate),
    LocatedSequence arms ns → (originsOf (flatten ns)).Nodup →
      ∀ o ∈ originsOf (flatten ns), ∀ p ∈ o.path,
        p ∈ arms ∨ Before (flatten (optimizeSequence ns c).1) p.ifPC o.oldPC
  | [], c, arms, _, _ => by simp
  | n :: ns, c, arms, h, hnodup => by
      obtain ⟨hn, hns⟩ := h
      rw [flatten_cons, originsOf_append] at hnodup
      intro o ho p hp
      rw [flatten_cons, originsOf_append, List.mem_append] at ho
      rw [flatten_optimizeSequence_cons]
      rcases ho with ho | ho
      · have hfirst := before_optimizeNode n c arms hn hnodup.of_append_left o ho p hp
        exact hfirst.imp_right (Carried.of_sublist (List.sublist_append_left _ _)).before
      · have hlater := before_optimizeSequence ns (optimizeNode n c).2 arms hns
          hnodup.of_append_right o ho p hp
        exact hlater.imp_right (Carried.of_sublist (List.sublist_append_right _ _)).before

end

end AtomicProof.IfTail
