/-
Rewriting the tree of a script preserves what the script does.

The proof follows the tree.  The tail that is moved has a stack effect, so moving it behind the
conditional is an equation between functions of the two stacks; around it everything is congruence,
and atoms of unknown effect stay where they are.

Main definitions:

* `IfTail.code` — the script of a tree;
* `IfTail.WellFormed` — a tree whose markers are the right conditional atoms.

Main results:

* `IfTail.stackEffect_code` — a sequence that is safe to move has a stack effect;
* `IfTail.final_extract` — **moving the common tail behind the conditional**;
* `IfTail.optimizeSequence_sound` — **the rewriting preserves the run of a tree**.
-/

import AtomicProof.IfTailEffect

set_option autoImplicit false

namespace AtomicProof.IfTail

variable {env : ScriptEnv} {options : StructuredIfTailOptions}
variable {nodes ms ns : List Node} {s : String}

/-! ### Trees of scripts -/

def code (nodes : List Node) : List String := (flatten nodes).map (·.encoding)

def codeNode (node : Node) : List String := (flattenNode node).map (·.encoding)

@[simp] theorem code_nil : code [] = [] := rfl

@[simp] theorem code_cons (node : Node) (rest : List Node) :
    code (node :: rest) = codeNode node ++ code rest := by
  simp [code, codeNode, flatten]

theorem code_append (xs ys : List Node) : code (xs ++ ys) = code xs ++ code ys := by
  induction xs with
  | nil => rfl
  | cons node rest ih => rw [List.cons_append, code_cons, ih, code_cons, List.append_assoc]

@[simp] theorem codeNode_atom (a : Atom) : codeNode (.atom a) = [a.encoding] := rfl

theorem codeNode_ifElse (o m e : Atom) (t f : List Node) :
    codeNode (.ifRegion o t (some m) f e) =
      o.encoding :: code t ++ m.encoding :: code f ++ [e.encoding] := by
  simp [codeNode, flattenNode, code]

theorem codeNode_if (o e : Atom) (t f : List Node) :
    codeNode (.ifRegion o t none f e) = o.encoding :: code t ++ [e.encoding] := by
  simp [codeNode, flattenNode, code]

/-- What the text of an atom of the tree satisfies: it is one instruction when it is hexadecimal,
and its flag is the one `makeAtom` computes. -/
structure AtomOk (options : StructuredIfTailOptions) (a : Atom) : Prop where
  complete : isPureHex a.encoding = true → (completeInstruction a.encoding).isSome
  flag : a.extractionSafe = (makeAtom a.encoding 0 [] options).extractionSafe

mutual

/-- A node whose markers are the conditional atoms that belong there. -/
def WellFormed (options : StructuredIfTailOptions) : Node → Prop
  | .atom a => AtomOk options a ∧ controlToken a.encoding = .none
  | .ifRegion o t m f e =>
      (controlToken o.encoding = .if ∨ controlToken o.encoding = .notif) ∧
        controlToken e.encoding = .endif ∧ WellFormedSequence options t ∧
        WellFormedSequence options f ∧
        match m with
        | some marker => controlToken marker.encoding = .else
        | none => f = []

def WellFormedSequence (options : StructuredIfTailOptions) : List Node → Prop
  | [] => True
  | node :: rest => WellFormed options node ∧ WellFormedSequence options rest

end

theorem wellFormedSequence_iff :
    WellFormedSequence options nodes ↔ ∀ n ∈ nodes, WellFormed options n := by
  induction nodes with
  | nil => simp [WellFormedSequence]
  | cons node rest ih => simp [WellFormedSequence, ih]

theorem extractionSafeSequence_iff :
    extractionSafeSequence nodes = true ↔ ∀ n ∈ nodes, extractionSafe n = true := by
  induction nodes with
  | nil => simp [extractionSafeSequence]
  | cons node rest ih => simp [extractionSafeSequence, ih]

/-! ### The effect of a sequence that is safe to move -/

/-- The surroundings give every known label data. -/
def KnownLabels (env : ScriptEnv) (options : StructuredIfTailOptions) : Prop :=
  ∀ label ∈ options.knownDataPlaceholderLabels, (env.placeholder label).isSome

/-- The opcode of an instruction of hexadecimal text that is not `OP_RETURN`. -/
theorem ne_opReturn {op : BytOpcode} {operand : Bytes} (h : isSingleOpcode s .opReturn = false)
    (hinstr : completeInstruction s = some ⟨op.toByte, operand⟩) : op ≠ .opReturn := by
  rintro rfl
  have hbytes : ScriptCodec.hexToBytes s = .ok [BytOpcode.opReturn.toByte] := by
    unfold completeInstruction at hinstr
    cases hbytes : ScriptCodec.hexToBytes s with
    | error err => simp [hbytes] at hinstr
    | ok bs =>
        simp only [hbytes] at hinstr
        have hgt : 0x4e < BytOpcode.opReturn.toByte := by decide
        rw [eq_singleton_of_exactInstruction hinstr hgt]
  rw [isSingleOpcode_of_hexToBytes hbytes] at h
  simp at h

/-- **An atom that is safe to move has a stack effect.** -/
theorem stackEffect_atom {a : Atom} (h : AtomOk options a)
    (htoken : controlToken a.encoding = .none) (hsafe : a.extractionSafe = true)
    (hknown : KnownLabels env options) : ∃ g, StackEffect env [a.encoding] g := by
  rw [h.flag, makeAtom] at hsafe
  simp only [Bool.or_eq_true, Bool.and_eq_true, Bool.not_eq_true'] at hsafe
  rcases hsafe with ⟨⟨hpure, hret⟩, -⟩ | hlabel
  · obtain ⟨instr, hinstr⟩ := Option.isSome_iff_exists.1 (h.complete hpure)
    refine stackEffect_of_instruction hinstr fun op hop => ?_
    obtain ⟨opcode, operand⟩ := instr
    obtain rfl := BytOpcode.toByte_of_ofByte? hop
    exact ⟨not_isConditional_of_controlToken htoken hinstr, ne_opReturn hret hinstr⟩
  · unfold isKnownDataPlaceholderEncoding at hlabel
    cases hl : placeholderLabel a.encoding with
    | none => simp [hl] at hlabel
    | some label =>
        simp only [hl, List.contains_iff_mem] at hlabel
        obtain ⟨payload, hpayload⟩ := Option.isSome_iff_exists.1 (hknown label hlabel)
        have hdata : env.placeholderData a.encoding = some payload := by
          simp [ScriptEnv.placeholderData, hl, hpayload]
        exact ⟨_, stackEffect_of_mainAtom
          (mainAtom_of_placeholder (completeInstruction_of_placeholderLabel hl) hdata)⟩

mutual

/-- A node that is safe to move has a stack effect. -/
theorem stackEffect_codeNode (hknown : KnownLabels env options) : ∀ n : Node,
    WellFormed options n → extractionSafe n = true → ∃ g, StackEffect env (codeNode n) g
  | .atom a, h, hsafe => by
      unfold WellFormed at h
      exact stackEffect_atom h.1 h.2 (by simpa [extractionSafe] using hsafe) hknown
  | .ifRegion o t m f e, h, hsafe => by
      unfold WellFormed at h
      obtain ⟨ho, he, ht, hf, hm⟩ := h
      unfold extractionSafe at hsafe
      simp only [Bool.and_eq_true] at hsafe
      obtain ⟨ga, ha⟩ := stackEffect_code hknown t ht hsafe.1.2
      obtain ⟨gb, hb⟩ := stackEffect_code hknown f hf hsafe.2
      cases m with
      | none => exact ⟨_, codeNode_if o e t f ▸ stackEffect_if ho he ha⟩
      | some m => exact ⟨_, codeNode_ifElse o m e t f ▸ stackEffect_ifElse ho hm he ha hb⟩

/-- **A sequence that is safe to move has a stack effect.** -/
theorem stackEffect_code (hknown : KnownLabels env options) : ∀ nodes : List Node,
    WellFormedSequence options nodes → extractionSafeSequence nodes = true →
      ∃ g, StackEffect env (code nodes) g
  | [], _, _ => ⟨_, stackEffect_nil⟩
  | node :: rest, h, hsafe => by
      unfold WellFormedSequence at h
      unfold extractionSafeSequence at hsafe
      rw [Bool.and_eq_true] at hsafe
      obtain ⟨g, hg⟩ := stackEffect_codeNode hknown node h.1 hsafe.1
      obtain ⟨g', hg'⟩ := stackEffect_code hknown rest h.2 hsafe.2
      exact ⟨_, code_cons node rest ▸ hg.append hg'⟩

end

/-! ### Equivalent sequences -/

def SameAtom (env : ScriptEnv) (s t : String) : Prop :=
  ∀ vm, execAtom env s vm = execAtom env t vm

theorem final_of_sameAtoms {xs ys : List String} (h : List.Forall₂ (SameAtom env) xs ys)
    (vm : VM) : final env xs vm = final env ys vm := by
  induction h generalizing vm with
  | nil => rfl
  | @cons s t xs ys hst _ ih =>
      by_cases hf : vm.finished = true
      · rw [final_of_finished hf, final_of_finished hf]
      · rw [Bool.not_eq_true] at hf
        rw [final_cons hf, final_cons hf, hst vm, funext ih]

theorem sameAtom_of_equivalentAtom (env : ScriptEnv) {a b : Atom}
    (hcomplete : isPureHex a.encoding = true → (completeInstruction a.encoding).isSome)
    (h : equivalentAtom a b = true) : SameAtom env a.encoding b.encoding := by
  intro vm
  unfold equivalentAtom at h
  split_ifs at h with hpure
  -- two spellings of the same bytes
  · rw [Bool.and_eq_true] at hpure
    obtain ⟨bs, hbs, hnorm⟩ := hexToBytes_of_isPureHex hpure.1
    obtain ⟨bs', hbs', hnorm'⟩ := hexToBytes_of_isPureHex hpure.2
    rw [beq_iff_eq, hnorm, hnorm'] at h
    have hsame : completeInstruction a.encoding = completeInstruction b.encoding := by
      rw [completeInstruction, completeInstruction, hbs, hbs', bytesToHex_injective h]
    obtain ⟨instr, hinstr⟩ := Option.isSome_iff_exists.1 (hcomplete hpure.1)
    rw [execAtom, execAtom, ← hsame, hinstr]
  · rw [beq_iff_eq] at h
    rw [h]

theorem complete_of_controlToken (op : BytOpcode)
    (h : (controlToken s).opcode = some op) : (completeInstruction s).isSome := by
  rw [completeInstruction_of_controlToken h]
  rfl

theorem complete_opener (h : controlToken s = .if ∨ controlToken s = .notif) :
    (completeInstruction s).isSome := by
  rcases h with h | h
  · exact complete_of_controlToken .opIf (by rw [h]; rfl)
  · exact complete_of_controlToken .opNotif (by rw [h]; rfl)

mutual

/-- The texts of equivalent nodes run alike, atom by atom. -/
theorem sameAtoms_of_equivalent : ∀ n n' : Node, WellFormed options n → equivalent n n' = true →
    List.Forall₂ (SameAtom env) (codeNode n) (codeNode n')
  | .atom a, .atom b, h, heq => by
      unfold WellFormed at h
      unfold equivalent at heq
      exact .cons (sameAtom_of_equivalentAtom env h.1.complete heq) .nil
  | .ifRegion o t m f e, .ifRegion o' t' m' f' e', h, heq => by
      unfold WellFormed at h
      obtain ⟨ho, he, ht, hf, hm⟩ := h
      unfold equivalent at heq
      simp only [Bool.and_eq_true] at heq
      obtain ⟨⟨⟨⟨heqo, heqm⟩, heqe⟩, heqt⟩, heqf⟩ := heq
      have hso := sameAtom_of_equivalentAtom env (fun _ => complete_opener ho) heqo
      have hse := sameAtom_of_equivalentAtom env
        (fun _ => complete_of_controlToken .opEndif (by rw [he]; rfl)) heqe
      have hst := sameAtoms_of_equivalentSequence t t' ht heqt
      cases m with
      | none =>
          cases m' with
          | none =>
              rw [codeNode_if, codeNode_if]
              exact .cons hso (List.rel_append hst (.cons hse .nil))
          | some m' => simp at heqm
      | some m =>
          cases m' with
          | none => simp at heqm
          | some m' =>
              have hsm := sameAtom_of_equivalentAtom env
                (fun _ => complete_of_controlToken .opElse (by rw [hm]; rfl)) heqm
              have hsf := sameAtoms_of_equivalentSequence f f' hf heqf
              rw [codeNode_ifElse, codeNode_ifElse]
              exact List.rel_append (List.rel_append (.cons hso hst) (.cons hsm hsf))
                (.cons hse .nil)
  | .atom _, .ifRegion _ _ _ _ _, _, heq =>
      Bool.noConfusion ((equivalent_atom_ifRegion ..).symm.trans heq)
  | .ifRegion _ _ _ _ _, .atom _, _, heq =>
      Bool.noConfusion ((equivalent_ifRegion_atom ..).symm.trans heq)

theorem sameAtoms_of_equivalentSequence : ∀ ns ns' : List Node, WellFormedSequence options ns →
    equivalentSequence ns ns' = true → List.Forall₂ (SameAtom env) (code ns) (code ns')
  | [], [], _, _ => .nil
  | n :: ns, n' :: ns', h, heq => by
      unfold WellFormedSequence at h
      rw [equivalentSequence_cons_cons, Bool.and_eq_true] at heq
      rw [code_cons, code_cons]
      exact List.rel_append (sameAtoms_of_equivalent n n' h.1 heq.1)
        (sameAtoms_of_equivalentSequence ns ns' h.2 heq.2)
  | [], _ :: _, _, heq => Bool.noConfusion ((equivalentSequence_nil_cons ..).symm.trans heq)
  | _ :: _, [], _, heq => Bool.noConfusion ((equivalentSequence_cons_nil ..).symm.trans heq)

end

/-! ### Merged origins -/

theorem AtomOk.mergeOriginsAtom {k : Atom} (h : AtomOk options k) (d : Atom) :
    AtomOk options (mergeOriginsAtom k d) :=
  ⟨h.complete, h.flag⟩

mutual

/-- Merging origins keeps the text of a node. -/
theorem codeNode_mergeOrigins : ∀ k d : Node, codeNode (mergeOrigins k d) = codeNode k
  | .atom _, .atom _ => rfl
  | .atom a, .ifRegion o t m f e => by rw [mergeOrigins_atom_ifRegion]
  | .ifRegion o t m f e, .atom a => by rw [mergeOrigins_ifRegion_atom]
  | .ifRegion o t m f e, .ifRegion o' t' m' f' e' => by
      have ht := code_mergeOriginsSequence t t'
      have hf := code_mergeOriginsSequence f f'
      cases m with
      | none =>
          rw [codeNode_if]
          exact (codeNode_if ..).trans (by rw [ht]; rfl)
      | some m =>
          rw [codeNode_ifElse]
          cases m' <;> exact (codeNode_ifElse ..).trans (by rw [ht, hf]; rfl)

theorem code_mergeOriginsSequence : ∀ ks ds : List Node, code (mergeOriginsSequence ks ds) = code ks
  | [], ds => rfl
  | k :: ks, [] => by rw [mergeOriginsSequence_cons_nil]
  | k :: ks, d :: ds => by
      rw [mergeOriginsSequence_cons_cons, code_cons, code_cons, codeNode_mergeOrigins,
        code_mergeOriginsSequence]

end

mutual

/-- Merging origins keeps a node well formed. -/
theorem wellFormed_mergeOrigins : ∀ k d : Node, WellFormed options k →
    WellFormed options (mergeOrigins k d)
  | .atom _, .atom d, h => by
      unfold WellFormed at h
      exact ⟨h.1.mergeOriginsAtom d, h.2⟩
  | .atom a, .ifRegion o t m f e, h => by rwa [mergeOrigins_atom_ifRegion]
  | .ifRegion o t m f e, .atom a, h => by rwa [mergeOrigins_ifRegion_atom]
  | .ifRegion o t m f e, .ifRegion o' t' m' f' e', h => by
      unfold WellFormed at h
      obtain ⟨ho, he, ht, hf, hm⟩ := h
      refine ⟨ho, he, wellFormed_mergeOriginsSequence t t' ht,
        wellFormed_mergeOriginsSequence f f' hf, ?_⟩
      cases m with
      | none =>
          obtain rfl : f = [] := hm
          exact mergeOriginsSequence_nil f'
      | some m => cases m' <;> exact hm

theorem wellFormed_mergeOriginsSequence : ∀ ks ds : List Node, WellFormedSequence options ks →
    WellFormedSequence options (mergeOriginsSequence ks ds)
  | [], _, h => h
  | k :: ks, [], h => by rwa [mergeOriginsSequence_cons_nil]
  | k :: ks, d :: ds, h => by
      unfold WellFormedSequence at h
      rw [mergeOriginsSequence_cons_cons]
      exact ⟨wellFormed_mergeOrigins k d h.1, wellFormed_mergeOriginsSequence ks ds h.2⟩

end

/-! ### The common tail -/

theorem forall₂_take_commonCount : ∀ ms ns : List Node,
    List.Forall₂ (fun m n => equivalent m n = true) (ms.take (commonCount ms ns))
      (ns.take (commonCount ms ns))
  | [], ns => by simp
  | m :: ms, [] => by simp
  | m :: ms, n :: ns => by
      rw [commonCount_cons_cons]
      split_ifs with h
      · exact .cons h (forall₂_take_commonCount ms ns)
      · simp

theorem forall₂_commonTail (t f : List Node) :
    List.Forall₂ (fun m n => equivalent m n = true)
      (t.drop (t.length - commonCount t.reverse f.reverse))
      (f.drop (f.length - commonCount t.reverse f.reverse)) := by
  have h := forall₂_take_commonCount t.reverse f.reverse
  rwa [List.take_reverse, List.take_reverse, List.forall₂_reverse_iff] at h

theorem equivalentSequence_of_forall₂ (h : List.Forall₂ (fun m n => equivalent m n = true) ms ns) :
    equivalentSequence ms ns = true := by
  induction h with
  | nil => rfl
  | cons hmn _ ih => rw [equivalentSequence_cons_cons, hmn, ih, Bool.and_self]

theorem code_zipWith_mergeOrigins (h : ms.length = ns.length) :
    code (List.zipWith mergeOrigins ms ns) = code ms := by
  induction ms generalizing ns with
  | nil => rfl
  | cons m ms ih =>
      cases ns with
      | nil => simp at h
      | cons n ns =>
          rw [List.zipWith_cons_cons, code_cons, code_cons, codeNode_mergeOrigins,
            ih (by simpa using h)]

theorem wellFormedSequence_zipWith_mergeOrigins
    (h : WellFormedSequence options ms) (ns : List Node) :
    WellFormedSequence options (List.zipWith mergeOrigins ms ns) := by
  rw [wellFormedSequence_iff] at h ⊢
  intro n hn
  obtain ⟨i, hi, rfl⟩ := List.mem_iff_getElem.1 hn
  rw [List.getElem_zipWith]
  exact wellFormed_mergeOrigins _ _ (h _ (List.getElem_mem _))

theorem WellFormedSequence.take (h : WellFormedSequence options nodes)
    (k : ℕ) : WellFormedSequence options (nodes.take k) := by
  rw [wellFormedSequence_iff] at h ⊢
  exact fun n hn => h n (List.mem_of_mem_take hn)

theorem WellFormedSequence.drop (h : WellFormedSequence options nodes)
    (k : ℕ) : WellFormedSequence options (nodes.drop k) := by
  rw [wellFormedSequence_iff] at h ⊢
  exact fun n hn => h n (List.mem_of_mem_drop hn)

theorem WellFormedSequence.append (hm : WellFormedSequence options ms)
    (hn : WellFormedSequence options ns) : WellFormedSequence options (ms ++ ns) := by
  rw [wellFormedSequence_iff] at hm hn ⊢
  intro n hmem
  rcases List.mem_append.1 hmem with h | h
  · exact hm n h
  · exact hn n h

theorem extractionSafeSequence_sublist (hsub : ms.Sublist ns)
    (h : extractionSafeSequence ns = true) : extractionSafeSequence ms = true := by
  rw [extractionSafeSequence_iff] at h ⊢
  exact fun n hn => h n (hsub.subset hn)

section Extraction

variable {o m e : Atom} {t f : List Node}

/-- What extraction can do: nothing, or move the common tail of two arms that are safe to move. -/
theorem extractCommonTail_cases (t f : List Node) (c : Counters) :
    ((extractCommonTail t f c).thenBody = t ∧ (extractCommonTail t f c).elseBody = f ∧
        (extractCommonTail t f c).commonTail = []) ∨
      (extractionSafeSequence t = true ∧ extractionSafeSequence f = true ∧
        ∃ i j, List.Forall₂ (fun m n => equivalent m n = true) (t.drop i) (f.drop j) ∧
          (extractCommonTail t f c).thenBody = t.take i ∧
          (extractCommonTail t f c).elseBody = f.take j ∧
          (extractCommonTail t f c).commonTail =
            List.zipWith mergeOrigins (t.drop i) (f.drop j)) := by
  unfold extractCommonTail
  by_cases hsafe : (extractionSafeSequence t && extractionSafeSequence f) = true
  · simp only [hsafe, Bool.not_true, Bool.false_eq_true, if_false]
    rw [Bool.and_eq_true] at hsafe
    by_cases hzero : commonCount t.reverse f.reverse = 0
    · exact .inl (by simp only [hzero, if_true, and_self])
    · refine .inr ⟨hsafe.1, hsafe.2, _, _, forall₂_commonTail t f, ?_⟩
      simp only [hzero, if_false, and_self]
  · rw [Bool.not_eq_true] at hsafe
    exact .inl (by simp only [hsafe, Bool.not_false, if_true, and_self])

theorem final_moveTail {opener marker close : String} {a a' b b' : List String}
    {ga gb gc : Stack → Stack → Option (Stack × Stack)}
    (ho : controlToken opener = .if ∨ controlToken opener = .notif)
    (hm : controlToken marker = .else) (he : controlToken close = .endif)
    (ha : StackEffect env a ga) (hb : StackEffect env b gb) (hc : StackEffect env a' gc)
    (hc' : StackEffect env b' gc) (vm : VM) :
    final env ((opener :: a ++ marker :: b ++ [close]) ++ a') vm =
      final env (opener :: (a ++ a') ++ marker :: (b ++ b') ++ [close]) vm := by
  refine StackEffect.final_eq (g := branch (controlToken opener = .notif) (andThen ga gc)
    (andThen gb gc)) ?_ (stackEffect_ifElse ho hm he (ha.append hc) (hb.append hc')) vm
  rw [← andThen_branch]
  exact (stackEffect_ifElse ho hm he ha hb).append hc

/-- **Moving the common tail behind the conditional preserves the run.** -/
theorem final_extract (hknown : KnownLabels env options)
    (ho : controlToken o.encoding = .if ∨ controlToken o.encoding = .notif)
    (hm : controlToken m.encoding = .else) (he : controlToken e.encoding = .endif)
    (ht : WellFormedSequence options t) (hf : WellFormedSequence options f) (c : Counters)
    (vm : VM) :
    final env (code (.ifRegion o (extractCommonTail t f c).thenBody (some m)
        (extractCommonTail t f c).elseBody e :: (extractCommonTail t f c).commonTail)) vm =
      final env (codeNode (.ifRegion o t (some m) f e)) vm := by
  rcases extractCommonTail_cases t f c with ⟨h1, h2, h3⟩ | ⟨hst, hsf, i, j, htail, h1, h2, h3⟩
  · rw [h1, h2, h3, code_cons, code_nil, List.append_nil]
  -- the effects of what stays in the arms and of the tail
  · obtain ⟨ga, ha⟩ := stackEffect_code hknown (t.take i) (ht.take i)
      (extractionSafeSequence_sublist (List.take_sublist i t) hst)
    obtain ⟨gb, hb⟩ := stackEffect_code hknown (f.take j) (hf.take j)
      (extractionSafeSequence_sublist (List.take_sublist j f) hsf)
    obtain ⟨gc, hc⟩ := stackEffect_code hknown (t.drop i) (ht.drop i)
      (extractionSafeSequence_sublist (List.drop_sublist i t) hst)
    have hc' : StackEffect env (code (f.drop j)) gc :=
      hc.congr (final_of_sameAtoms (sameAtoms_of_equivalentSequence _ _ (ht.drop i)
        (equivalentSequence_of_forall₂ htail)))
    have hsplit : code t = code (t.take i) ++ code (t.drop i) := by
      rw [← code_append, List.take_append_drop]
    have hsplit' : code f = code (f.take j) ++ code (f.drop j) := by
      rw [← code_append, List.take_append_drop]
    rw [h1, h2, h3, code_cons, codeNode_ifElse, codeNode_ifElse,
      code_zipWith_mergeOrigins htail.length_eq, hsplit, hsplit']
    exact final_moveTail ho hm he ha hb hc hc' vm

theorem wellFormedSequence_extract
    (ho : controlToken o.encoding = .if ∨ controlToken o.encoding = .notif)
    (hm : controlToken m.encoding = .else) (he : controlToken e.encoding = .endif)
    (ht : WellFormedSequence options t) (hf : WellFormedSequence options f) (c : Counters) :
    WellFormedSequence options
      (.ifRegion o (extractCommonTail t f c).thenBody (some m)
        (extractCommonTail t f c).elseBody e :: (extractCommonTail t f c).commonTail) := by
  rcases extractCommonTail_cases t f c with ⟨h1, h2, h3⟩ | ⟨-, -, i, j, -, h1, h2, h3⟩
  · rw [h1, h2, h3]
    exact ⟨⟨ho, he, ht, hf, hm⟩, trivial⟩
  · rw [h1, h2, h3]
    exact ⟨⟨ho, he, ht.take _, hf.take _, hm⟩,
      wellFormedSequence_zipWith_mergeOrigins (ht.drop _) _⟩

end Extraction

/-! ### The rewriting -/

mutual

/-- Rewriting a node keeps its run. -/
theorem optimizeNode_sound (hknown : KnownLabels env options) : ∀ (n : Node) (c : Counters),
    WellFormed options n → WellFormedSequence options (optimizeNode n c).1 ∧
      ∀ vm, final env (code (optimizeNode n c).1) vm = final env (codeNode n) vm
  | .atom a, c, h => ⟨⟨h, trivial⟩, fun vm => by simp [optimizeNode]⟩
  | .ifRegion o t m f e, c, h => by
      unfold WellFormed at h
      obtain ⟨ho, he, ht, hf, hm⟩ := h
      obtain ⟨ht', hrunt⟩ := optimizeSequence_sound hknown t c ht
      obtain ⟨hf', hrunf⟩ := optimizeSequence_sound hknown f (optimizeSequence t c).2 hf
      cases m with
      | none =>
          obtain rfl : f = [] := hm
          refine ⟨⟨⟨ho, he, ht', hf', rfl⟩, trivial⟩, fun vm => ?_⟩
          have hcode : code (optimizeNode (.ifRegion o t none [] e) c).1 =
              [o.encoding] ++ code (optimizeSequence t c).1 ++ [e.encoding] := by
            simp [optimizeNode, codeNode_if]
          rw [hcode, final_congr _ _ hrunt, codeNode_if]
          rfl
      | some m =>
          refine ⟨wellFormedSequence_extract ho hm he ht' hf' _, fun vm => ?_⟩
          refine (final_extract hknown ho hm he ht' hf' _ vm).trans ?_
          rw [codeNode_ifElse, codeNode_ifElse]
          -- the arms are replaced one after the other
          have hthen := final_congr [o.encoding] (m.encoding :: code (optimizeSequence f
            (optimizeSequence t c).2).1 ++ [e.encoding]) hrunt vm
          have helse := final_congr (o.encoding :: code t ++ [m.encoding]) [e.encoding]
            hrunf vm
          simp only [List.append_assoc, List.cons_append, List.nil_append] at hthen helse ⊢
          rw [hthen, helse]

/-- **Rewriting a sequence keeps its run.** -/
theorem optimizeSequence_sound (hknown : KnownLabels env options) : ∀ (ns : List Node)
    (c : Counters), WellFormedSequence options ns →
      WellFormedSequence options (optimizeSequence ns c).1 ∧
        ∀ vm, final env (code (optimizeSequence ns c).1) vm = final env (code ns) vm
  | [], c, h => ⟨h, fun vm => rfl⟩
  | n :: ns, c, h => by
      unfold WellFormedSequence at h
      obtain ⟨hn, hrunn⟩ := optimizeNode_sound hknown n c h.1
      obtain ⟨hns, hrunns⟩ := optimizeSequence_sound hknown ns (optimizeNode n c).2 h.2
      refine ⟨hn.append hns, fun vm => ?_⟩
      have hcode : code (optimizeSequence (n :: ns) c).1 =
          code (optimizeNode n c).1 ++ code (optimizeSequence ns (optimizeNode n c).2).1 :=
        code_append _ _
      rw [hcode, code_cons, final_append, final_append, hrunn, funext hrunns]

end

end AtomicProof.IfTail
