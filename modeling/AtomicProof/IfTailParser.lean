/-
The common-tail optimiser preserves what a script does.

The parser accepts exactly the scripts whose conditionals nest and have at most one `OP_ELSE`, and
returns a tree of the script; every other script comes back unchanged.

Main definitions:

* `IfTail.IsAtom` — the atoms the optimiser works on;
* `IfTail.Balanced` — scripts whose conditionals nest and have at most one `OP_ELSE` each.

Main results:

* `IfTail.parse_sound`, `IfTail.parse_complete` — the parser returns a tree of the script, for
  every balanced script;
* `IfTail.outcome_optimize` — **the optimiser preserves the run of every script**, and returns a
  script that is not balanced unchanged.
-/

import AtomicProof.IfTailSound

set_option autoImplicit false

namespace AtomicProof.IfTail

variable {env : ScriptEnv} {options : StructuredIfTailOptions}
variable {s : String} {instructions : List String}

/-! ### Atoms -/

/-- An atom of a script: hexadecimal text is one complete instruction. -/
def IsAtom (s : String) : Prop := isPureHex s = true → (completeInstruction s).isSome

instance (s : String) : Decidable (IsAtom s) :=
  inferInstanceAs (Decidable (isPureHex s = true → (completeInstruction s).isSome = true))

theorem isAtom_of_completeInstruction (h : (completeInstruction s).isSome) : IsAtom s :=
  fun _ => h

/-! ### Balanced scripts -/

/-- Scripts whose conditionals nest and have at most one `OP_ELSE` each. -/
inductive Balanced : List String → Prop
  | nil : Balanced []
  | atom {s : String} {rest : List String} (hs : controlToken s = .none) (hrest : Balanced rest) :
      Balanced (s :: rest)
  | ifThen {o e : String} {t rest : List String}
      (ho : controlToken o = .if ∨ controlToken o = .notif) (he : controlToken e = .endif)
      (ht : Balanced t) (hrest : Balanced rest) : Balanced (o :: (t ++ e :: rest))
  | ifElse {o m e : String} {t f rest : List String}
      (ho : controlToken o = .if ∨ controlToken o = .notif) (hm : controlToken m = .else)
      (he : controlToken e = .endif) (ht : Balanced t) (hf : Balanced f)
      (hrest : Balanced rest) : Balanced (o :: (t ++ m :: (f ++ e :: rest)))

mutual

theorem balanced_codeNode_append : ∀ (n : Node) (rest : List String), WellFormed options n →
    Balanced rest → Balanced (codeNode n ++ rest)
  | .atom a, rest, h, hrest => by
      unfold WellFormed at h
      exact .atom h.2 hrest
  | .ifRegion o t m f e, rest, h, hrest => by
      unfold WellFormed at h
      obtain ⟨ho, he, ht, hf, hm⟩ := h
      have ht' := balanced_code t ht
      cases m with
      | none => simpa [codeNode_if] using Balanced.ifThen ho he ht' hrest
      | some m =>
          simpa [codeNode_ifElse] using Balanced.ifElse ho hm he ht' (balanced_code f hf) hrest

theorem balanced_code : ∀ ns : List Node, WellFormedSequence options ns → Balanced (code ns)
  | [], _ => .nil
  | n :: ns, h => by
      unfold WellFormedSequence at h
      rw [code_cons]
      exact balanced_codeNode_append n _ h.1 (balanced_code ns h.2)

end

/-! ### The parser -/

/-- The rest of an input where the parser stops. -/
def AtStop (rest : List String) : Prop :=
  ∀ s rest', rest = s :: rest' → controlToken s = .else ∨ controlToken s = .endif

theorem atStop_nil : AtStop [] := by simp [AtStop]

/-- What a successful call of the parser on a first atom has done. -/
theorem parseSequence_cons {fuel index : ℕ} {rest : List String}
    {path : List BranchPredicate} {p : Parsed}
    (h : parseSequence options (fuel + 1) index (s :: rest) path = some p) :
    ((controlToken s = .else ∨ controlToken s = .endif) ∧ p = ⟨[], index, s :: rest⟩) ∨
    (controlToken s = .none ∧ ∃ tail, parseSequence options fuel (index + 1) rest path = some tail ∧
      p = { tail with nodes := .atom (makeAtom s index path options) :: tail.nodes }) ∨
    ((controlToken s = .if ∨ controlToken s = .notif) ∧
      ∃ thenArm stop after tail,
        parseSequence options fuel (index + 1) rest (path ++ [⟨index, .then⟩]) = some thenArm ∧
        thenArm.rest = stop :: after ∧ controlToken stop = .endif ∧
        parseSequence options fuel (thenArm.index + 1) after path = some tail ∧
        p = { tail with
          nodes := .ifRegion (makeAtom s index path options) thenArm.nodes none []
            (makeAtom stop thenArm.index path options) :: tail.nodes }) ∨
    ((controlToken s = .if ∨ controlToken s = .notif) ∧
      ∃ thenArm stop after elseArm close afterClose tail,
        parseSequence options fuel (index + 1) rest (path ++ [⟨index, .then⟩]) = some thenArm ∧
        thenArm.rest = stop :: after ∧ controlToken stop = .else ∧
        parseSequence options fuel (thenArm.index + 1) after (path ++ [⟨index, .else⟩]) =
          some elseArm ∧
        elseArm.rest = close :: afterClose ∧ controlToken close = .endif ∧
        parseSequence options fuel (elseArm.index + 1) afterClose path = some tail ∧
        p = { tail with
          nodes := .ifRegion (makeAtom s index path options) thenArm.nodes
            (some (makeAtom stop thenArm.index path options)) elseArm.nodes
            (makeAtom close elseArm.index path options) :: tail.nodes }) := by
  cases htoken : controlToken s with
  | «else» =>
      simp only [parseSequence, htoken, Option.some_inj] at h
      exact .inl ⟨.inl rfl, h.symm⟩
  | endif =>
      simp only [parseSequence, htoken, Option.some_inj] at h
      exact .inl ⟨.inr rfl, h.symm⟩
  | none =>
      simp only [parseSequence, htoken, Option.bind_eq_bind, Option.bind_eq_some_iff,
        Option.pure_def, Option.some_inj] at h
      obtain ⟨tail, htail, rfl⟩ := h
      exact .inr (.inl ⟨rfl, tail, htail, rfl⟩)
  | «if» | notif =>
      refine .inr (.inr ?_)
      simp only [parseSequence, htoken, Option.bind_eq_bind, Option.bind_eq_some_iff] at h
      obtain ⟨thenArm, hthen, h⟩ := h
      cases hrest : thenArm.rest with
      | nil => simp [hrest] at h
      | cons stop after =>
          simp only [hrest] at h
          split_ifs at h with helse hend
          -- the conditional has a second arm
          · rw [Option.bind_eq_some_iff] at h
            obtain ⟨elseArm, helseArm, h⟩ := h
            cases hclose : elseArm.rest with
            | nil => simp [hclose] at h
            | cons close afterClose =>
                simp only [hclose] at h
                split_ifs at h with hne
                rw [ne_eq, not_not] at hne
                simp only [Option.bind_eq_some_iff, Option.pure_def, Option.some_inj] at h
                obtain ⟨tail, htail, rfl⟩ := h
                exact .inr ⟨by simp, thenArm, stop, after, elseArm, close, afterClose, tail,
                  hthen, hrest, helse, helseArm, hclose, hne, htail, rfl⟩
          · rw [ne_eq, not_not] at hend
            simp only [Option.bind_eq_some_iff, Option.pure_def, Option.some_inj] at h
            obtain ⟨tail, htail, rfl⟩ := h
            exact .inl ⟨by simp, thenArm, stop, after, tail, hthen, hrest, hend, htail, rfl⟩

theorem atomOk_makeAtom (index : ℕ) (path : List BranchPredicate)
    (h : IsAtom s) : AtomOk options (makeAtom s index path options) :=
  ⟨h, rfl⟩

/-- A successful call of the parser has read the text of a well-formed tree, up to a place where
it stops. -/
theorem parseSequence_sound : ∀ (fuel index : ℕ) (input : List String)
    (path : List BranchPredicate) (p : Parsed),
    (∀ s ∈ input, IsAtom s) →
    parseSequence options fuel index input path = some p →
      code p.nodes ++ p.rest = input ∧ WellFormedSequence options p.nodes ∧ AtStop p.rest
  | 0, _, _, _, _, _, h => nomatch (show none = some _ from h)
  | fuel + 1, index, [], path, p, _, h => by
      obtain rfl : (⟨[], index, []⟩ : Parsed) = p := Option.some.inj h
      exact ⟨rfl, trivial, atStop_nil⟩
  | fuel + 1, index, s :: rest, path, p, hall, h => by
      have hs := hall s List.mem_cons_self
      have hrest : ∀ s ∈ rest, IsAtom s :=
        fun s' hs' => hall s' (List.mem_cons_of_mem _ hs')
      rcases parseSequence_cons h with ⟨htoken, rfl⟩ | ⟨htoken, tail, htail, rfl⟩ |
        ⟨htoken, thenArm, stop, after, tail, hthen, hstop, hend, htail, rfl⟩ |
        ⟨htoken, thenArm, stop, after, elseArm, close, afterClose, tail, hthen, hstop, helse,
          helseArm, hclose, hend, htail, rfl⟩
      · refine ⟨rfl, trivial, fun s' rest' heq => ?_⟩
        obtain ⟨rfl, -⟩ := List.cons.inj heq
        exact htoken
      · obtain ⟨hcode, hwf, hat⟩ := parseSequence_sound fuel _ _ _ _ hrest htail
        exact ⟨by simp [← hcode, makeAtom], ⟨⟨atomOk_makeAtom _ _ hs, htoken⟩, hwf⟩, hat⟩
      · obtain ⟨hcode, hwf, -⟩ := parseSequence_sound fuel _ _ _ _ hrest hthen
        rw [hstop] at hcode
        have hafter : ∀ s ∈ after, IsAtom s :=
          fun s' hs' => hrest s' (by simp [← hcode, hs'])
        obtain ⟨hcode', hwf', hat⟩ := parseSequence_sound fuel _ _ _ _ hafter htail
        exact ⟨by simp [← hcode, ← hcode', codeNode_if, makeAtom],
          ⟨⟨htoken, hend, hwf, trivial, rfl⟩, hwf'⟩, hat⟩
      · obtain ⟨hcode, hwf, -⟩ := parseSequence_sound fuel _ _ _ _ hrest hthen
        rw [hstop] at hcode
        have hafter : ∀ s ∈ after, IsAtom s :=
          fun s' hs' => hrest s' (by simp [← hcode, hs'])
        obtain ⟨hcode', hwf', -⟩ := parseSequence_sound fuel _ _ _ _ hafter helseArm
        rw [hclose] at hcode'
        have hafterClose : ∀ s ∈ afterClose, IsAtom s :=
          fun s' hs' => hafter s' (by simp [← hcode', hs'])
        obtain ⟨hcode'', hwf'', hat⟩ := parseSequence_sound fuel _ _ _ _ hafterClose htail
        exact ⟨by simp [← hcode, ← hcode', ← hcode'', codeNode_ifElse, makeAtom],
          ⟨⟨htoken, hend, hwf, hwf', helse⟩, hwf''⟩, hat⟩

theorem parse_eq_some {nodes : List Node} (h : parse instructions options = some nodes) :
    ∃ p, parseSequence options (instructions.length + 1) 0 instructions [] = some p ∧
      p.rest = [] ∧ p.nodes = nodes := by
  unfold parse at h
  cases hp : parseSequence options (instructions.length + 1) 0 instructions [] with
  | none => simp [hp] at h
  | some p =>
      simp only [hp] at h
      split_ifs at h with hrest
      exact ⟨p, rfl, hrest, Option.some.inj h⟩

/-- **The parser returns a tree of the script.** -/
theorem parse_sound {nodes : List Node} (hall : ∀ s ∈ instructions, IsAtom s)
    (h : parse instructions options = some nodes) :
    code nodes = instructions ∧ WellFormedSequence options nodes := by
  obtain ⟨p, hp, hrest, rfl⟩ := parse_eq_some h
  obtain ⟨hcode, hwf, -⟩ := parseSequence_sound _ _ _ _ _ hall hp
  rw [hrest, List.append_nil] at hcode
  exact ⟨hcode, hwf⟩

theorem parseSequence_of_atStop {rest : List String} (h : AtStop rest) (fuel index : ℕ)
    (path : List BranchPredicate) :
    parseSequence options (fuel + 1) index rest path = some ⟨[], index, rest⟩ := by
  cases rest with
  | nil => rfl
  | cons s rest => rcases h s rest rfl with hs | hs <;> simp [parseSequence, hs]

theorem atStop_of_else (h : controlToken s = .else) (rest : List String) : AtStop (s :: rest) := by
  rintro s' rest' heq
  obtain ⟨rfl, -⟩ := List.cons.inj heq
  exact .inl h

theorem atStop_of_endif (h : controlToken s = .endif) (rest : List String) :
    AtStop (s :: rest) := by
  rintro s' rest' heq
  obtain ⟨rfl, -⟩ := List.cons.inj heq
  exact .inr h

/-- On a balanced script followed by a place to stop the parser reads that script. -/
theorem parseSequence_complete (options : StructuredIfTailOptions) {xs : List String}
    (hxs : Balanced xs) :
    ∀ {rest : List String} (fuel index : ℕ) (path : List BranchPredicate), AtStop rest →
      xs.length < fuel → ∃ nodes stop,
        parseSequence options fuel index (xs ++ rest) path = some ⟨nodes, stop, rest⟩ := by
  induction hxs with
  | nil =>
      intro rest fuel index path hstop hfuel
      obtain ⟨fuel, rfl⟩ : ∃ k, fuel = k + 1 := ⟨fuel - 1, by simp at hfuel; omega⟩
      exact ⟨_, _, parseSequence_of_atStop hstop fuel index path⟩
  | @atom s tail hs _ ih =>
      intro rest fuel index path hstop hfuel
      rw [List.length_cons] at hfuel
      obtain ⟨fuel, rfl⟩ : ∃ k, fuel = k + 1 := ⟨fuel - 1, by omega⟩
      obtain ⟨nodes, stop, hp⟩ := ih fuel (index + 1) path hstop (by omega)
      exact ⟨_, _, by simp only [List.cons_append, parseSequence, hs, hp]; rfl⟩
  | @ifThen o e t tail ho he _ _ iht ih =>
      intro rest fuel index path hstop hfuel
      simp only [List.length_cons, List.length_append] at hfuel
      obtain ⟨fuel, rfl⟩ : ∃ k, fuel = k + 1 := ⟨fuel - 1, by omega⟩
      obtain ⟨thenArm, close, hthen⟩ := iht fuel (index + 1) (path ++ [⟨index, .then⟩])
        (atStop_of_endif he (tail ++ rest)) (by omega)
      obtain ⟨nodes, stop, hp⟩ := ih fuel (close + 1) path hstop (by omega)
      have hinput : o :: (t ++ e :: tail) ++ rest = o :: (t ++ (e :: (tail ++ rest))) := by simp
      rw [hinput]
      rcases ho with ho | ho <;> simp [parseSequence, ho, hthen, he, hp]
  | @ifElse o m e t f tail ho hm he _ _ _ iht ihf ih =>
      intro rest fuel index path hstop hfuel
      simp only [List.length_cons, List.length_append] at hfuel
      obtain ⟨fuel, rfl⟩ : ∃ k, fuel = k + 1 := ⟨fuel - 1, by omega⟩
      obtain ⟨thenArm, middle, hthen⟩ := iht fuel (index + 1) (path ++ [⟨index, .then⟩])
        (atStop_of_else hm (f ++ e :: (tail ++ rest))) (by omega)
      obtain ⟨elseArm, close, helse⟩ := ihf fuel (middle + 1) (path ++ [⟨index, .else⟩])
        (atStop_of_endif he (tail ++ rest)) (by omega)
      obtain ⟨nodes, stop, hp⟩ := ih fuel (close + 1) path hstop (by omega)
      have hinput : o :: (t ++ m :: (f ++ e :: tail)) ++ rest =
          o :: (t ++ (m :: (f ++ (e :: (tail ++ rest))))) := by simp
      rw [hinput]
      rcases ho with ho | ho <;> simp [parseSequence, ho, hthen, hm, helse, he, hp]

/-- **The parser accepts every balanced script.** -/
theorem parse_complete (options : StructuredIfTailOptions) (h : Balanced instructions) :
    ∃ nodes, parse instructions options = some nodes := by
  obtain ⟨nodes, stop, hp⟩ := parseSequence_complete options h _ 0 [] atStop_nil
    (Nat.lt_succ_self _)
  rw [List.append_nil] at hp
  exact ⟨nodes, by simp [parse, hp]⟩

/-! ### The whole pass -/

/-- What the optimiser returns: the input, or the text of the rewritten tree. -/
theorem optimize_cases (instructions : List String) (options : StructuredIfTailOptions) :
    (parse instructions options = none ∧
        optimize instructions options = unchangedResult instructions false true) ∨
      ∃ nodes, parse instructions options = some nodes ∧
        (optimize instructions options).structurallyValid = true ∧
        ((optimize instructions options).instructions = instructions ∨
          (optimize instructions options).instructions = code (optimizeSequence nodes {}).1) := by
  unfold optimize
  cases hparse : parse instructions options with
  | none => exact .inl ⟨rfl, rfl⟩
  | some nodes =>
      refine .inr ⟨nodes, rfl, ?_⟩
      simp only
      split
      · exact ⟨rfl, .inl rfl⟩
      · split_ifs
        · exact ⟨rfl, .inr rfl⟩
        · exact ⟨rfl, .inl rfl⟩

/-- **The optimiser preserves the run of every script**, and returns a script whose conditionals
are not balanced unchanged. -/
theorem outcome_optimize (env : ScriptEnv) (options : StructuredIfTailOptions)
    (instructions : List String) (hatoms : ∀ s ∈ instructions, IsAtom s)
    (hknown : KnownLabels env options) :
    (∀ main alt, outcome env (optimize instructions options).instructions main alt =
        outcome env instructions main alt) ∧
      (¬ Balanced instructions → (optimize instructions options).instructions = instructions) := by
  constructor
  · intro main alt
    rcases optimize_cases instructions options with ⟨-, h⟩ | ⟨nodes, hparse, -, h | h⟩
    · rw [h]
      rfl
    · rw [h]
    · obtain ⟨hcode, hwf⟩ := parse_sound hatoms hparse
      obtain ⟨-, hrun⟩ := optimizeSequence_sound hknown nodes {} hwf
      rw [outcome, outcome, h, hrun, hcode]
  · intro hbalanced
    rcases optimize_cases instructions options with ⟨-, h⟩ | ⟨nodes, hparse, -, -⟩
    · rw [h]
      rfl
    · obtain ⟨hcode, hwf⟩ := parse_sound hatoms hparse
      exact absurd (hcode ▸ balanced_code nodes hwf) hbalanced

/-- A conditional whose arms both end in the placeholder `<self.x>`: the tail moves out, and the
run is the same. -/
theorem outcome_optimize_plain :
    (optimize ["63", "75", "<self.x>", "67", "<self.x>", "68"] ⟨["self.x"]⟩).instructions =
        ["63", "75", "67", "68", "<self.x>"] ∧
      ∀ main alt, outcome .plain ["63", "75", "67", "68", "<self.x>"] main alt =
        outcome .plain ["63", "75", "<self.x>", "67", "<self.x>", "68"] main alt := by
  have hmoved : (optimize ["63", "75", "<self.x>", "67", "<self.x>", "68"]
      ⟨["self.x"]⟩).instructions = ["63", "75", "67", "68", "<self.x>"] := by decide
  have hknown : KnownLabels .plain ⟨["self.x"]⟩ := by
    intro label hlabel
    rw [List.mem_singleton.1 hlabel]
    rfl
  have hrun := (outcome_optimize .plain ⟨["self.x"]⟩
    ["63", "75", "<self.x>", "67", "<self.x>", "68"] (by decide) hknown).1
  rw [hmoved] at hrun
  exact ⟨hmoved, hrun⟩

end AtomicProof.IfTail
