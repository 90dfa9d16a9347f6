/-
The optimised script is a normal form of the common-tail optimiser.

The rewriting goes once over the tree, children before parents, and moving a tail out of the arms of
a conditional leaves arms that have no common tail any more.  What the parser makes of the written
script is the optimised tree, up to the records, and neither the comparison of nodes nor the test
whether they are safe to move looks at these.  So a second pass finds nothing to do.

Main definitions:

* `IfTail.bareNode` — a tree without its records;
* `IfTail.Shaped` — a tree that the parser can return;
* `IfTail.Normal` — a tree whose arms have no tail to move.

Main results:

* `IfTail.parseSequence_code` — the parser returns a tree from its text;
* `IfTail.normalSequence_optimizeSequence` — the optimised tree is normal;
* `IfTail.optimizeSequence_of_normal` — **a normal tree is left as it is**;
* `IfTail.optimize_complete` — **the rewrite plan is complete and the result is a normal form.**
-/

import AtomicProof.IfTailPlanValid

set_option autoImplicit false

namespace AtomicProof.IfTail

variable {options : StructuredIfTailOptions}
variable {nodes ms ns : List Node}

/-! ### Trees without records -/

def bareAtom (a : Atom) : Atom := { a with origins := [] }

mutual

def bareNode : Node → Node
  | .atom a => .atom (bareAtom a)
  | .ifRegion o t m f e =>
      .ifRegion (bareAtom o) (bareSequence t) (m.map bareAtom) (bareSequence f) (bareAtom e)

def bareSequence : List Node → List Node
  | [] => []
  | node :: rest => bareNode node :: bareSequence rest

end

theorem bareSequence_eq_map (ns : List Node) : bareSequence ns = ns.map bareNode := by
  induction ns with
  | nil => rfl
  | cons n ns ih => rw [bareSequence, ih, List.map_cons]

theorem equivalentAtom_bareAtom (a b : Atom) :
    equivalentAtom (bareAtom a) (bareAtom b) = equivalentAtom a b := rfl

theorem bareAtom_makeAtom {a : Atom} (index : ℕ) (path : List BranchPredicate)
    (h : a.extractionSafe = (makeAtom a.encoding 0 [] options).extractionSafe) :
    bareAtom (makeAtom a.encoding index path options) = bareAtom a := by
  rw [bareAtom, bareAtom, h]
  rfl

mutual

theorem bareNode_mergeOrigins : ∀ k d : Node, bareNode (mergeOrigins k d) = bareNode k
  | .atom _, .atom _ => rfl
  | .atom a, .ifRegion o t m f e => by rw [mergeOrigins_atom_ifRegion]
  | .ifRegion o t m f e, .atom a => by rw [mergeOrigins_ifRegion_atom]
  | .ifRegion o t m f e, .ifRegion o' t' m' f' e' => by
      have ht := bareSequence_mergeOriginsSequence t t'
      have hf := bareSequence_mergeOriginsSequence f f'
      cases m <;> cases m' <;> simp only [mergeOrigins, bareNode, ht, hf] <;> rfl

theorem bareSequence_mergeOriginsSequence : ∀ ks ds : List Node,
    bareSequence (mergeOriginsSequence ks ds) = bareSequence ks
  | [], ds => rfl
  | k :: ks, [] => by rw [mergeOriginsSequence_cons_nil]
  | k :: ks, d :: ds => by
      rw [mergeOriginsSequence_cons_cons, bareSequence, bareNode_mergeOrigins,
        bareSequence_mergeOriginsSequence, bareSequence]

end

mutual

theorem extractionSafe_bareNode : ∀ n : Node, extractionSafe (bareNode n) = extractionSafe n
  | .atom _ => rfl
  | .ifRegion o t m f e => by
      have ht := extractionSafeSequence_bareSequence t
      have hf := extractionSafeSequence_bareSequence f
      cases m <;> simp only [bareNode, extractionSafe, ht, hf] <;> rfl

theorem extractionSafeSequence_bareSequence : ∀ ns : List Node,
    extractionSafeSequence (bareSequence ns) = extractionSafeSequence ns
  | [] => rfl
  | n :: ns => by
      rw [bareSequence, extractionSafeSequence, extractionSafeSequence, extractionSafe_bareNode,
        extractionSafeSequence_bareSequence]

end

mutual

theorem equivalent_bareNode : ∀ m n : Node,
    equivalent (bareNode m) (bareNode n) = equivalent m n
  | .atom _, .atom _ => rfl
  | .atom a, .ifRegion o t m f e => rfl
  | .ifRegion o t m f e, .atom a => rfl
  | .ifRegion o t m f e, .ifRegion o' t' m' f' e' => by
      have ht := equivalentSequence_bareSequence t t'
      have hf := equivalentSequence_bareSequence f f'
      rw [bareNode, bareNode]
      unfold equivalent
      rw [ht, hf, equivalentAtom_bareAtom, equivalentAtom_bareAtom]
      cases m <;> cases m' <;> rfl

theorem equivalentSequence_bareSequence : ∀ ms ns : List Node,
    equivalentSequence (bareSequence ms) (bareSequence ns) = equivalentSequence ms ns
  | [], [] => rfl
  | [], n :: ns => rfl
  | m :: ms, [] => rfl
  | m :: ms, n :: ns => by
      rw [bareSequence, bareSequence, equivalentSequence_cons_cons, equivalentSequence_cons_cons,
        equivalent_bareNode, equivalentSequence_bareSequence]

end

mutual

theorem codeNode_bareNode : ∀ n : Node, codeNode (bareNode n) = codeNode n
  | .atom _ => rfl
  | .ifRegion o t none f e => by
      rw [bareNode, Option.map_none, codeNode_if, codeNode_if, code_bareSequence]
      rfl
  | .ifRegion o t (some m) f e => by
      rw [bareNode, Option.map_some, codeNode_ifElse, codeNode_ifElse, code_bareSequence,
        code_bareSequence]
      rfl

theorem code_bareSequence : ∀ ns : List Node, code (bareSequence ns) = code ns
  | [] => rfl
  | n :: ns => by
      rw [bareSequence, code_cons, code_cons, codeNode_bareNode, code_bareSequence]

end

theorem commonCount_map_bareNode (ms ns : List Node) :
    commonCount (ms.map bareNode) (ns.map bareNode) = commonCount ms ns := by
  induction ms generalizing ns with
  | nil => rfl
  | cons m ms ih =>
      cases ns with
      | nil => rfl
      | cons n ns =>
          rw [List.map_cons, List.map_cons, commonCount_cons_cons, commonCount_cons_cons, ih,
            equivalent_bareNode]

/-! ### Normal trees -/

/-- Two arms with no common tail to move. -/
def Settled (t f : List Node) : Prop :=
  (extractionSafeSequence t && extractionSafeSequence f) = false ∨
    commonCount t.reverse f.reverse = 0

mutual

/-- A node whose conditionals with two arms have no common tail to move. -/
def Normal : Node → Prop
  | .atom _ => True
  | .ifRegion _ t m f _ =>
      NormalSequence t ∧ NormalSequence f ∧ (m.isSome = true → Settled t f)

def NormalSequence : List Node → Prop
  | [] => True
  | node :: rest => Normal node ∧ NormalSequence rest

end

theorem normalSequence_iff : NormalSequence nodes ↔ ∀ n ∈ nodes, Normal n := by
  induction nodes with
  | nil => simp [NormalSequence]
  | cons node rest ih => simp [NormalSequence, ih]

theorem settled_bareSequence (t f : List Node) :
    Settled (bareSequence t) (bareSequence f) ↔ Settled t f := by
  unfold Settled
  rw [extractionSafeSequence_bareSequence, extractionSafeSequence_bareSequence,
    bareSequence_eq_map, bareSequence_eq_map, ← List.map_reverse, ← List.map_reverse,
    commonCount_map_bareNode]

mutual

theorem normal_bareNode : ∀ n : Node, Normal (bareNode n) ↔ Normal n
  | .atom _ => Iff.rfl
  | .ifRegion o t m f e => by
      rw [bareNode, Normal, Normal, normalSequence_bareSequence t, normalSequence_bareSequence f,
        settled_bareSequence, Option.isSome_map]

theorem normalSequence_bareSequence : ∀ ns : List Node,
    NormalSequence (bareSequence ns) ↔ NormalSequence ns
  | [] => Iff.rfl
  | n :: ns => by
      rw [bareSequence, NormalSequence, NormalSequence, normal_bareNode n,
        normalSequence_bareSequence ns]

end

theorem NormalSequence.of_bareSequence_eq (h : NormalSequence ms)
    (heq : bareSequence ms = bareSequence ns) : NormalSequence ns := by
  rw [← normalSequence_bareSequence, ← heq]
  exact (normalSequence_bareSequence ms).mpr h

/-- Behind the common tail of two lists there is no common tail left. -/
theorem commonCount_drop (ms ns : List Node) :
    commonCount (ms.drop (commonCount ms ns)) (ns.drop (commonCount ms ns)) = 0 := by
  induction ms generalizing ns with
  | nil => simp
  | cons m ms ih =>
      cases ns with
      | nil => simp
      | cons n ns =>
          rw [commonCount_cons_cons]
          split_ifs with h
          · rw [List.drop_succ_cons, List.drop_succ_cons]
            exact ih ns
          · rw [List.drop_zero, List.drop_zero, commonCount_cons_cons, if_neg h]

theorem commonCount_le (ms ns : List Node) :
    commonCount ms ns ≤ ms.length ∧ commonCount ms ns ≤ ns.length := by
  induction ms generalizing ns with
  | nil => simp
  | cons m ms ih =>
      cases ns with
      | nil => simp
      | cons n ns =>
          rw [commonCount_cons_cons, List.length_cons, List.length_cons]
          have := ih ns
          split_ifs <;> omega

/-- **Extraction leaves arms with no common tail to move.** -/
theorem settled_extractCommonTail (t f : List Node) (c : Counters) :
    Settled (extractCommonTail t f c).thenBody (extractCommonTail t f c).elseBody := by
  unfold extractCommonTail
  by_cases hsafe : (extractionSafeSequence t && extractionSafeSequence f) = true
  · simp only [hsafe, Bool.not_true, Bool.false_eq_true, if_false]
    by_cases hzero : commonCount t.reverse f.reverse = 0
    · simp only [hzero, if_true]
      exact .inr hzero
    · simp only [hzero, if_false]
      refine .inr ?_
      obtain ⟨hle, hle'⟩ := commonCount_le t.reverse f.reverse
      rw [List.length_reverse] at hle hle'
      rw [List.reverse_take, List.reverse_take, Nat.sub_sub_self hle, Nat.sub_sub_self hle']
      exact commonCount_drop t.reverse f.reverse
  · rw [Bool.not_eq_true] at hsafe
    simp only [hsafe, Bool.not_false, if_true]
    exact .inl hsafe

/-! ### The rewriting and normal trees -/

theorem bareSequence_zipWith_mergeOrigins {ts fs : List Node} (h : ts.length = fs.length) :
    bareSequence (List.zipWith mergeOrigins ts fs) = bareSequence ts := by
  induction ts generalizing fs with
  | nil => rfl
  | cons n ts ih =>
      cases fs with
      | nil => simp at h
      | cons d fs =>
          rw [List.zipWith_cons_cons, bareSequence, bareNode_mergeOrigins,
            ih (by simpa using h), bareSequence]

/-- What a predicate of nodes that does not look at records says of both arms holds behind the
extraction. -/
theorem forall_extractCommonTail {P : Node → Prop}
    (hbare : ∀ ms ns : List Node, bareSequence ms = bareSequence ns → (∀ n ∈ ms, P n) →
      ∀ n ∈ ns, P n)
    {t f : List Node} (ht : ∀ n ∈ t, P n) (hf : ∀ n ∈ f, P n) (c : Counters) :
    (∀ n ∈ (extractCommonTail t f c).thenBody, P n) ∧
      (∀ n ∈ (extractCommonTail t f c).elseBody, P n) ∧
      ∀ n ∈ (extractCommonTail t f c).commonTail, P n := by
  rcases extractCommonTail_cases t f c with ⟨h1, h2, h3⟩ | ⟨-, -, i, j, htail, h1, h2, h3⟩
  · rw [h1, h2, h3]
    exact ⟨ht, hf, by simp⟩
  · rw [h1, h2, h3]
    refine ⟨fun n hn => ht n (List.mem_of_mem_take hn), fun n hn => hf n (List.mem_of_mem_take hn),
      hbare (t.drop i) _ (bareSequence_zipWith_mergeOrigins htail.length_eq).symm fun n hn => ?_⟩
    exact ht n (List.mem_of_mem_drop hn)

theorem NormalSequence.append (hm : NormalSequence ms)
    (hn : NormalSequence ns) : NormalSequence (ms ++ ns) := by
  rw [normalSequence_iff] at hm hn ⊢
  intro n hmem
  exact (List.mem_append.mp hmem).elim (hm n) (hn n)

mutual

/-- What a node is rewritten to is normal. -/
theorem normalSequence_optimizeNode : ∀ (n : Node) (c : Counters),
    NormalSequence (optimizeNode n c).1
  | .atom _, c => ⟨trivial, trivial⟩
  | .ifRegion o t none f e, c =>
      ⟨⟨normalSequence_optimizeSequence t c, normalSequence_optimizeSequence f _,
        fun h => Bool.noConfusion h⟩, trivial⟩
  | .ifRegion o t (some m) f e, c => by
      have ht := normalSequence_iff.mp (normalSequence_optimizeSequence t c)
      have hf := normalSequence_iff.mp
        (normalSequence_optimizeSequence f (optimizeSequence t c).2)
      obtain ⟨hthen, helse, htail⟩ := forall_extractCommonTail (P := Normal)
        (fun ms ns heq h => normalSequence_iff.mp
          (NormalSequence.of_bareSequence_eq (normalSequence_iff.mpr h) heq))
        ht hf (optimizeSequence f (optimizeSequence t c).2).2
      exact ⟨⟨normalSequence_iff.mpr hthen, normalSequence_iff.mpr helse,
        fun _ => settled_extractCommonTail _ _ _⟩, normalSequence_iff.mpr htail⟩

/-- **What a sequence is rewritten to is normal.** -/
theorem normalSequence_optimizeSequence : ∀ (ns : List Node) (c : Counters),
    NormalSequence (optimizeSequence ns c).1
  | [], _ => trivial
  | n :: ns, c =>
      (normalSequence_optimizeNode n c).append (normalSequence_optimizeSequence ns _)

end

theorem extractCommonTail_of_settled {t f : List Node} (h : Settled t f) (c : Counters) :
    (extractCommonTail t f c).thenBody = t ∧ (extractCommonTail t f c).elseBody = f ∧
      (extractCommonTail t f c).commonTail = [] ∧
      (extractCommonTail t f c).counters.changed = c.changed := by
  unfold extractCommonTail
  rcases h with hsafe | hzero
  · simp only [hsafe, Bool.not_false, if_true, true_and]
    split_ifs <;> rfl
  · by_cases hsafe : (extractionSafeSequence t && extractionSafeSequence f) = true
    · simp only [hsafe, Bool.not_true, Bool.false_eq_true, if_false, hzero, if_true, and_self]
    · rw [Bool.not_eq_true] at hsafe
      simp only [hsafe, Bool.not_false, if_true, true_and]
      split_ifs <;> rfl

mutual

theorem optimizeNode_of_normal : ∀ (n : Node) (c : Counters), Normal n →
    (optimizeNode n c).1 = [n] ∧ (optimizeNode n c).2.changed = c.changed
  | .atom _, c, _ => ⟨rfl, rfl⟩
  | .ifRegion o t m f e, c, h => by
      obtain ⟨ht, hf, hsettled⟩ := h
      obtain ⟨ht, hct⟩ := optimizeSequence_of_normal t c ht
      obtain ⟨hf, hcf⟩ := optimizeSequence_of_normal f (optimizeSequence t c).2 hf
      cases m with
      | none =>
          refine ⟨?_, hcf.trans hct⟩
          simp only [optimizeNode, ht, hf]
      | some m =>
          obtain ⟨h1, h2, h3, h4⟩ := extractCommonTail_of_settled (hsettled rfl)
            (optimizeSequence f (optimizeSequence t c).2).2
          simp only [optimizeNode, ht, hf, h1, h2, h3, h4]
          exact ⟨trivial, hcf.trans hct⟩

/-- **A normal tree is left as it is.** -/
theorem optimizeSequence_of_normal : ∀ (ns : List Node) (c : Counters), NormalSequence ns →
    (optimizeSequence ns c).1 = ns ∧ (optimizeSequence ns c).2.changed = c.changed
  | [], c, _ => ⟨rfl, rfl⟩
  | n :: ns, c, h => by
      obtain ⟨hn, hcn⟩ := optimizeNode_of_normal n c h.1
      obtain ⟨hns, hcns⟩ := optimizeSequence_of_normal ns (optimizeNode n c).2 h.2
      refine ⟨?_, hcns.trans hcn⟩
      simp only [optimizeSequence, hn, hns, List.singleton_append]

end

/-! ### Parsing the text of a tree -/

/-- The flag of an atom is the one `makeAtom` computes. -/
def Flagged (options : StructuredIfTailOptions) (a : Atom) : Prop :=
  a.extractionSafe = (makeAtom a.encoding 0 [] options).extractionSafe

mutual

/-- A node that the parser can return, whatever its records are. -/
def Shaped (options : StructuredIfTailOptions) : Node → Prop
  | .atom a => Flagged options a ∧ controlToken a.encoding = .none
  | .ifRegion o t m f e =>
      (Flagged options o ∧ (controlToken o.encoding = .if ∨ controlToken o.encoding = .notif)) ∧
        (Flagged options e ∧ controlToken e.encoding = .endif) ∧ ShapedSequence options t ∧
        ShapedSequence options f ∧
        match m with
        | some marker => Flagged options marker ∧ controlToken marker.encoding = .else
        | none => f = []

def ShapedSequence (options : StructuredIfTailOptions) : List Node → Prop
  | [] => True
  | node :: rest => Shaped options node ∧ ShapedSequence options rest

end

theorem shapedSequence_iff : ShapedSequence options nodes ↔ ∀ n ∈ nodes, Shaped options n := by
  induction nodes with
  | nil => simp [ShapedSequence]
  | cons node rest ih => simp [ShapedSequence, ih]

mutual

theorem shaped_bareNode : ∀ n : Node, Shaped options (bareNode n) ↔ Shaped options n
  | .atom _ => Iff.rfl
  | .ifRegion o t none f e => by
      have hnil : bareSequence f = [] ↔ f = [] := by
        rw [bareSequence_eq_map, List.map_eq_nil_iff]
      simp only [bareNode, Shaped, shapedSequence_bareSequence t, shapedSequence_bareSequence f,
        Option.map_none, hnil]
      exact Iff.rfl
  | .ifRegion o t (some m) f e => by
      simp only [bareNode, Shaped, shapedSequence_bareSequence t, shapedSequence_bareSequence f,
        Option.map_some]
      exact Iff.rfl

theorem shapedSequence_bareSequence : ∀ ns : List Node,
    ShapedSequence options (bareSequence ns) ↔ ShapedSequence options ns
  | [] => Iff.rfl
  | n :: ns => by
      rw [bareSequence, ShapedSequence, ShapedSequence, shaped_bareNode n,
        shapedSequence_bareSequence ns]

end

theorem ShapedSequence.append (hm : ShapedSequence options ms)
    (hn : ShapedSequence options ns) : ShapedSequence options (ms ++ ns) := by
  rw [shapedSequence_iff] at hm hn ⊢
  intro n hmem
  exact (List.mem_append.mp hmem).elim (hm n) (hn n)

mutual

theorem shapedSequence_optimizeNode : ∀ (n : Node) (c : Counters), Shaped options n →
    ShapedSequence options (optimizeNode n c).1
  | .atom _, c, h => ⟨h, trivial⟩
  | .ifRegion o t none f e, c, h => by
      unfold Shaped at h
      obtain ⟨ho, he, ht, hf, rfl⟩ := h
      exact ⟨⟨ho, he, shapedSequence_optimizeSequence t c ht, trivial, rfl⟩, trivial⟩
  | .ifRegion o t (some m) f e, c, h => by
      unfold Shaped at h
      obtain ⟨ho, he, ht, hf, hm⟩ := h
      have ht' := shapedSequence_iff.mp (shapedSequence_optimizeSequence t c ht)
      have hf' := shapedSequence_iff.mp
        (shapedSequence_optimizeSequence f (optimizeSequence t c).2 hf)
      obtain ⟨hthen, helse, htail⟩ := forall_extractCommonTail (P := Shaped options)
        (fun ms ns heq h => shapedSequence_iff.mp (shapedSequence_bareSequence ns |>.mp
          (heq ▸ (shapedSequence_bareSequence ms).mpr (shapedSequence_iff.mpr h))))
        ht' hf' (optimizeSequence f (optimizeSequence t c).2).2
      exact ⟨⟨ho, he, shapedSequence_iff.mpr hthen, shapedSequence_iff.mpr helse, hm⟩,
        shapedSequence_iff.mpr htail⟩

theorem shapedSequence_optimizeSequence : ∀ (ns : List Node) (c : Counters),
    ShapedSequence options ns → ShapedSequence options (optimizeSequence ns c).1
  | [], _, _ => trivial
  | n :: ns, c, h =>
      (shapedSequence_optimizeNode n c h.1).append (shapedSequence_optimizeSequence ns _ h.2)

end

theorem flagged_makeAtom (s : String) (index : ℕ) (path : List BranchPredicate) :
    Flagged options (makeAtom s index path options) := rfl

/-- The parser returns shaped trees. -/
theorem parseSequence_shaped : ∀ (fuel index : ℕ) (input : List String)
    (path : List BranchPredicate) (p : Parsed),
    parseSequence options fuel index input path = some p → ShapedSequence options p.nodes
  | 0, _, _, _, _, h => nomatch (show none = some _ from h)
  | fuel + 1, index, [], path, p, h => by
      obtain rfl := Option.some.inj h
      exact trivial
  | fuel + 1, index, s :: rest, path, p, h => by
      rcases parseSequence_cons h with ⟨-, rfl⟩ | ⟨htoken, tail, htail, rfl⟩ |
        ⟨htoken, thenArm, stop, after, tail, hthen, hstop, hend, htail, rfl⟩ |
        ⟨htoken, thenArm, stop, after, elseArm, close, afterClose, tail, hthen, hstop, helse,
          helseArm, hclose, hend, htail, rfl⟩
      · exact trivial
      · exact ⟨⟨flagged_makeAtom .., htoken⟩, parseSequence_shaped fuel _ _ _ _ htail⟩
      · exact ⟨⟨⟨flagged_makeAtom .., htoken⟩, ⟨flagged_makeAtom .., hend⟩,
          parseSequence_shaped fuel _ _ _ _ hthen, trivial, rfl⟩,
          parseSequence_shaped fuel _ _ _ _ htail⟩
      · exact ⟨⟨⟨flagged_makeAtom .., htoken⟩, ⟨flagged_makeAtom .., hend⟩,
          parseSequence_shaped fuel _ _ _ _ hthen, parseSequence_shaped fuel _ _ _ _ helseArm,
          ⟨flagged_makeAtom .., helse⟩⟩, parseSequence_shaped fuel _ _ _ _ htail⟩

/-- **The parser returns a tree from its text**, up to the records. -/
theorem parseSequence_code : ∀ (ns : List Node), ShapedSequence options ns →
    ∀ (rest : List String) (fuel index : ℕ) (path : List BranchPredicate), AtStop rest →
      (code ns).length < fuel → ∃ nodes stop,
        parseSequence options fuel index (code ns ++ rest) path = some ⟨nodes, stop, rest⟩ ∧
          bareSequence nodes = bareSequence ns
  | [], _, rest, fuel, index, path, hstop, hfuel => by
      obtain ⟨fuel, rfl⟩ : ∃ k, fuel = k + 1 := ⟨fuel - 1, by simp at hfuel; omega⟩
      exact ⟨[], index, parseSequence_of_atStop hstop fuel index path, rfl⟩
  | .atom a :: ns, h, rest, fuel, index, path, hstop, hfuel => by
      obtain ⟨⟨hflag, htoken⟩, hns⟩ := h
      rw [code_cons, codeNode_atom] at hfuel ⊢
      rw [List.length_append, List.length_singleton] at hfuel
      obtain ⟨fuel, rfl⟩ : ∃ k, fuel = k + 1 := ⟨fuel - 1, by omega⟩
      obtain ⟨nodes, stop, hp, hbare⟩ := parseSequence_code ns hns rest fuel (index + 1) path hstop
        (by omega)
      refine ⟨.atom (makeAtom a.encoding index path options) :: nodes, stop, ?_, ?_⟩
      · have hinput : [a.encoding] ++ code ns ++ rest = a.encoding :: (code ns ++ rest) := rfl
        rw [hinput]
        simp only [parseSequence, htoken, hp]
        rfl
      · rw [bareSequence, bareSequence, hbare, bareNode, bareNode, bareAtom_makeAtom _ _ hflag]
  | .ifRegion o t none f e :: ns, h, rest, fuel, index, path, hstop, hfuel => by
      obtain ⟨hnode, hns⟩ := h
      unfold Shaped at hnode
      obtain ⟨⟨hflago, ho⟩, ⟨hflage, he⟩, ht, -, rfl⟩ := hnode
      rw [code_cons, codeNode_if] at hfuel ⊢
      simp only [List.length_append, List.length_cons, List.length_nil] at hfuel
      obtain ⟨fuel, rfl⟩ : ∃ k, fuel = k + 1 := ⟨fuel - 1, by omega⟩
      -- the arm ends at its own closer, and the sequence goes on behind it
      obtain ⟨thenNodes, close, hthen, hbaret⟩ := parseSequence_code t ht
        (e.encoding :: (code ns ++ rest)) fuel (index + 1) (path ++ [⟨index, .then⟩])
        (atStop_of_endif he _) (by omega)
      obtain ⟨nodes, stop, hp, hbare⟩ := parseSequence_code ns hns rest fuel (close + 1) path hstop
        (by omega)
      refine ⟨.ifRegion (makeAtom o.encoding index path options) thenNodes none []
        (makeAtom e.encoding close path options) :: nodes, stop, ?_, ?_⟩
      · have hinput : o.encoding :: code t ++ [e.encoding] ++ code ns ++ rest =
            o.encoding :: (code t ++ e.encoding :: (code ns ++ rest)) := by simp
        rw [hinput]
        rcases ho with ho | ho <;> simp [parseSequence, ho, hthen, he, hp]
      · rw [bareSequence, bareSequence, hbare, bareNode, bareNode, hbaret,
          bareAtom_makeAtom _ _ hflago, bareAtom_makeAtom _ _ hflage]
  | .ifRegion o t (some m) f e :: ns, h, rest, fuel, index, path, hstop, hfuel => by
      obtain ⟨hnode, hns⟩ := h
      unfold Shaped at hnode
      obtain ⟨⟨hflago, ho⟩, ⟨hflage, he⟩, ht, hf, hflagm, hm⟩ := hnode
      rw [code_cons, codeNode_ifElse] at hfuel ⊢
      simp only [List.length_append, List.length_cons, List.length_nil] at hfuel
      obtain ⟨fuel, rfl⟩ : ∃ k, fuel = k + 1 := ⟨fuel - 1, by omega⟩
      -- the first arm ends at the ELSE, the second at the closer
      obtain ⟨thenNodes, middle, hthen, hbaret⟩ := parseSequence_code t ht
        (m.encoding :: (code f ++ e.encoding :: (code ns ++ rest))) fuel (index + 1)
        (path ++ [⟨index, .then⟩]) (atStop_of_else hm _) (by omega)
      obtain ⟨elseNodes, close, helse, hbaref⟩ := parseSequence_code f hf
        (e.encoding :: (code ns ++ rest)) fuel (middle + 1) (path ++ [⟨index, .else⟩])
        (atStop_of_endif he _) (by omega)
      obtain ⟨nodes, stop, hp, hbare⟩ := parseSequence_code ns hns rest fuel (close + 1) path hstop
        (by omega)
      refine ⟨.ifRegion (makeAtom o.encoding index path options) thenNodes
        (some (makeAtom m.encoding middle path options)) elseNodes
        (makeAtom e.encoding close path options) :: nodes, stop, ?_, ?_⟩
      · have hinput : o.encoding :: code t ++ m.encoding :: code f ++ [e.encoding] ++ code ns ++
            rest = o.encoding :: (code t ++ m.encoding :: (code f ++ e.encoding ::
              (code ns ++ rest))) := by simp
        rw [hinput]
        rcases ho with ho | ho <;> simp [parseSequence, ho, hthen, hm, helse, he, hp]
      · rw [bareSequence, bareSequence, hbare, bareNode, bareNode, hbaret, hbaref,
          bareAtom_makeAtom _ _ hflago, bareAtom_makeAtom _ _ hflage, Option.map_some,
          Option.map_some, bareAtom_makeAtom _ _ hflagm]

theorem parse_code (h : ShapedSequence options ns) :
    ∃ nodes, parse (code ns) options = some nodes ∧ bareSequence nodes = bareSequence ns := by
  obtain ⟨nodes, stop, hp, hbare⟩ := parseSequence_code ns h [] ((code ns).length + 1) 0 []
    atStop_nil (Nat.lt_succ_self _)
  rw [List.append_nil] at hp
  exact ⟨nodes, by simp [parse, hp], hbare⟩

/-! ### The whole pass -/

/-- **Optimising the result again changes nothing.** -/
theorem optimize_optimize {instructions : List String}
    (h : parse instructions options = some nodes) :
    (optimize (optimize instructions options).instructions options).instructions =
        (optimize instructions options).instructions ∧
      (optimize (optimize instructions options).instructions options).changed = false := by
  obtain ⟨p, hp, -, rfl⟩ := parse_eq_some h
  have hshaped := shapedSequence_optimizeSequence p.nodes {} (parseSequence_shaped _ _ _ _ _ hp)
  obtain ⟨nodes, hparse, hbare⟩ := parse_code hshaped
  -- the second tree is the first optimised one, and so it is normal
  have hnormal := (normalSequence_optimizeSequence p.nodes {}).of_bareSequence_eq hbare.symm
  obtain ⟨hsame, hchanged⟩ := optimizeSequence_of_normal nodes {} hnormal
  obtain ⟨hfirst, -⟩ := optimize_of_parse h
  rw [hfirst]
  obtain ⟨hsecond, -, -, -, hflag⟩ := optimize_of_parse hparse
  rw [hsecond, hflag, hsame, hchanged]
  refine ⟨?_, rfl⟩
  rw [← code_bareSequence, hbare, code_bareSequence]

/-- **The rewrite plan is complete and the result is a normal form**: for a balanced script the plan
passes both of its checks, every old instruction has exactly one record in it, at its new place and
with the arms that enclose it at their new places, and optimising the result changes nothing. -/
theorem optimize_complete (options : StructuredIfTailOptions) {instructions : List String}
    (h : Balanced instructions) :
    (∃ nodes, parse instructions options = some nodes ∧
      normalizeBranchPaths (flattenPlan (List.replicate instructions.length none)
          (flatten (optimizeSequence nodes {}).1)) instructions
        (optimize instructions options).instructions =
          some (optimize instructions options).rewritePlan) ∧
      validateInstructionRewritePlan (optimize instructions options).rewritePlan instructions
        (optimize instructions options).instructions = true ∧
      (optimize instructions options).structurallyValid = true ∧
      (optimize instructions options).rewritePlanValid = true ∧
      (∀ pc < instructions.length, ∃ arms newPC origins path,
        (enclosingArms 0 [] instructions)[pc]? = some arms ∧
        (optimize instructions options).rewritePlan.oldToNew[pc]? = some (some newPC) ∧
        (optimize instructions options).rewritePlan.newToOld[newPC]? = some origins ∧
        ⟨pc, path⟩ ∈ origins ∧
        ((optimize instructions options).rewritePlan.newToOld.flatten.filter
          fun origin => origin.oldPC == pc) = [⟨pc, path⟩] ∧
        List.Forall₂ (fun old new : BranchPredicate => new.arm = old.arm ∧
          (optimize instructions options).rewritePlan.oldToNew[old.ifPC]? =
            some (some new.ifPC)) arms path) ∧
      (optimize (optimize instructions options).instructions options).instructions =
        (optimize instructions options).instructions ∧
      (optimize (optimize instructions options).instructions options).changed = false := by
  obtain ⟨nodes, hparse⟩ := parse_complete options h
  have hrewrite := rewriteOf_optimizeSequence hparse {}
  obtain ⟨hcode, hplan, hvalid, hstructure, -⟩ := optimize_of_parse hparse
  have hagain := optimize_optimize hparse
  rw [hvalid, hstructure]
  refine ⟨⟨nodes, hparse, ?_⟩, ?_, rfl, rfl, ?_, hagain⟩
  · rw [hcode, hplan]
    exact hrewrite.normalizeBranchPaths_eq
  · rw [hcode, hplan]
    exact hrewrite.validate_eq
  · intro pc hpc
    rw [hplan]
    obtain ⟨arms, harms⟩ : ∃ arms, (enclosingArms 0 [] instructions)[pc]? = some arms :=
      ⟨_, List.getElem?_eq_getElem (by rwa [length_enclosingArms])⟩
    have hrecord : (⟨pc, arms⟩ : InstructionOriginRef) ∈ recordedOrigins instructions :=
      mem_recordedOrigins.mpr harms
    obtain ⟨newPC, origins, hplace, -, horigins, hmem⟩ := hrewrite.exists_place hrecord
    refine ⟨arms, newPC, origins, _, harms, hplace, horigins, hmem,
      hrewrite.filter_newToOld hrecord, ?_⟩
    rw [List.forall₂_map_right_iff, List.forall₂_same]
    intro p hp
    obtain ⟨s, i, a, -, -, hi, -, -⟩ := hrewrite.opener (hrewrite.perm.mem_iff.mpr hrecord) hp
    refine ⟨rfl, hi.trans ?_⟩
    simp [renumber, hi]

/-- Two nested conditionals whose arms share a tail at both levels: the second `OP_1` of the script,
the innermost shared one, has moved behind both conditionals. -/
theorem optimize_complete_nested :
    (optimize ["63", "63", "51", "67", "51", "68", "67", "51", "68"] ⟨[]⟩).instructions =
        ["63", "63", "67", "68", "67", "68", "51"] ∧
      (optimize ["63", "63", "67", "68", "67", "68", "51"] ⟨[]⟩).changed = false := by
  have hbalanced : Balanced ["63", "63", "51", "67", "51", "68", "67", "51", "68"] :=
    .ifElse (t := ["63", "51", "67", "51", "68"]) (f := ["51"]) (.inl (by decide)) (by decide)
      (by decide)
      (.ifElse (t := ["51"]) (f := ["51"]) (.inl (by decide)) (by decide) (by decide)
        (.atom (by decide) .nil) (.atom (by decide) .nil) .nil)
      (.atom (by decide) .nil) .nil
  have hmoved : (optimize ["63", "63", "51", "67", "51", "68", "67", "51", "68"]
      ⟨[]⟩).instructions = ["63", "63", "67", "68", "67", "68", "51"] := by
    decide +kernel
  have hspec := (optimize_complete ⟨[]⟩ hbalanced).2.2.2.2.2.2
  rw [hmoved] at hspec
  exact ⟨hmoved, hspec⟩

end AtomicProof.IfTail
