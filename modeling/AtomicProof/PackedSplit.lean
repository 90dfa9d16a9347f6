/-
Packed values are split into their fields.

A value of a compound type, and an array of `uint64`, is one byte string on the stack until a field
of it is used.  `splitWholeArrayElement` and the branch of `visitFieldAccess` for compound types in
`src/src/compiler/ast_to_bytecode_visitor.cpp` then cut it with a row of `OP_SPLIT`.  Both roll the
packed value to the top first; only the array rolls the picture as well.

Main definitions:

* `splitAll` — the pieces that a row of cuts leaves;
* `splitWholeArrayElement`, `splitCompoundType` — the two splits;
* `PackedExact` — the fields are in place of the packed value.

Main results:

* `takes_splitsCode` — a row of cuts leaves the pieces, or fails;
* `packed_split_iff` — **arrays of eight-byte elements are split exactly, and compound values exactly
  where they are on top**.
-/

import AtomicProof.Slice

set_option autoImplicit false

namespace AtomicProof

/-! ### Rows of cuts -/

/-- The pieces that cuts of the given sizes leave, the topmost first; `none` where one is out of
range. -/
def splitAll : List ℕ → Bytes → Option (List Bytes)
  | [], x => some [x]
  | size :: sizes, x =>
      if size ≤ x.length then (splitAll sizes (x.drop size)).map (· ++ [x.take size]) else none

/-- Parts of the sizes are the pieces of what they make up together; the last part is what is left
over. -/
theorem splitAll_parts (last : Bytes) :
    ∀ parts : List Bytes, splitAll (parts.map List.length) (parts.flatten ++ last) =
      some (last :: parts.reverse) := by
  intro parts
  induction parts with
  | nil => simp [splitAll]
  | cons part parts ih =>
      have htake : (part ++ (parts.flatten ++ last)).take part.length = part := List.take_left
      have hdrop : (part ++ (parts.flatten ++ last)).drop part.length = parts.flatten ++ last :=
        List.drop_left
      rw [List.map_cons, List.flatten_cons, List.append_assoc, splitAll, htake, hdrop, ih,
        if_pos (by simp)]
      simp

theorem splitAll_length {sizes : List ℕ} {x : Bytes} {pieces : List Bytes}
    (h : splitAll sizes x = some pieces) : pieces.length = sizes.length + 1 := by
  induction sizes generalizing x pieces with
  | nil =>
      obtain rfl := Option.some.inj h
      rfl
  | cons size sizes ih =>
      rw [splitAll] at h
      split_ifs at h
      obtain ⟨rest, hrest, rfl⟩ := Option.map_eq_some_iff.1 h
      simp [ih hrest]

theorem getLast_splitAll {size : ℕ} {sizes : List ℕ} {x : Bytes} {pieces : List Bytes}
    (h : splitAll (size :: sizes) x = some pieces) :
    ∃ top, pieces = top ++ [x.take size] ∧ (x.take size).length = size := by
  rw [splitAll] at h
  split_ifs at h with hle
  obtain ⟨rest, -, rfl⟩ := Option.map_eq_some_iff.1 h
  exact ⟨rest, rfl, by rw [List.length_take]; omega⟩

variable {env : ScriptEnv}

/-- A row of pushed sizes, each with its cut. -/
def splitsCode (pushes : List (List String)) : List String :=
  (pushes.map fun push => push ++ emitOp .opSplit).flatten

/-- **A row of cuts leaves the pieces, or fails.** -/
theorem takes_splitsCode (push : ℕ → List String) (main alt : Stack) :
    ∀ (sizes : List ℕ) (x : Bytes), (∀ size ∈ sizes, size < 2 ^ 63) →
      (∀ size ∈ sizes, ∀ main alt : Stack,
        Takes env (push size) (main, alt) (serializeScriptNum size :: main, alt)) →
      (∀ pieces, splitAll sizes x = some pieces →
        Takes env (splitsCode (sizes.map push)) (x :: main, alt) (pieces ++ main, alt)) ∧
      (splitAll sizes x = none → ∀ code t,
        ¬ Takes env (splitsCode (sizes.map push) ++ code) (x :: main, alt) t) := by
  intro sizes
  induction sizes generalizing main with
  | nil =>
      intro x _ _
      refine ⟨?_, ?_⟩
      · intro pieces h
        obtain rfl := Option.some.inj h
        exact Takes.refl _
      · intro h
        cases h
  | cons size sizes ih =>
      intro x hsizes hpush
      have hsize := hsizes size List.mem_cons_self
      have hpushed := hpush size List.mem_cons_self (x :: main) alt
      have hdenotes : Denotes (serializeScriptNum size) (size : ℤ) :=
        .inl (toInt_serializeScriptNum (by rw [Int.natAbs_natCast]; exact hsize))
      have hcode : splitsCode ((size :: sizes).map push) =
          (push size ++ emitOp .opSplit) ++ splitsCode (sizes.map push) := by
        simp [splitsCode]
      rw [hcode, splitAll]
      by_cases hle : size ≤ x.length
      · have hcut : Takes env (emitOp .opSplit) (serializeScriptNum size :: x :: main, alt)
            (x.drop size :: x.take size :: main, alt) := by
          have hok := (opSplit_of_denotes hdenotes main).1 ⟨by omega, by exact_mod_cast hle⟩
          rw [Int.toNat_natCast] at hok
          exact takes_op alt (by decide) rfl hok
        have hfirst := hpushed.trans hcut
        obtain ⟨hsome, hnone⟩ := ih (x.take size :: main) (x.drop size)
          (fun other hother => hsizes other (List.mem_cons_of_mem _ hother))
          (fun other hother => hpush other (List.mem_cons_of_mem _ hother))
        rw [if_pos hle]
        refine ⟨?_, ?_⟩
        · intro pieces h
          obtain ⟨rest, hrest, rfl⟩ := Option.map_eq_some_iff.1 h
          have hstack : rest ++ [x.take size] ++ main = rest ++ (x.take size :: main) := by simp
          rw [hstack]
          exact hfirst.trans (hsome rest hrest)
        · intro h code t htakes
          rw [List.append_assoc] at htakes
          exact hnone (Option.map_eq_none_iff.1 h) code t (takes_of_append hfirst htakes)
      · rw [if_neg hle]
        refine ⟨?_, ?_⟩
        · intro pieces h
          cases h
        · intro _ code t htakes
          -- a split past the end fails, whatever code follows
          have hrange : ¬ (0 ≤ (size : ℤ) ∧ (size : ℤ) ≤ x.length) := by omega
          obtain ⟨error, herror⟩ := (opSplit_of_denotes hdenotes main).2 hrange
          rw [List.append_assoc, List.append_assoc] at htakes
          exact not_takes_split herror _ t (takes_of_append hpushed htakes)

/-- The pieces that a row of cuts leaves are known before it runs. -/
theorem takes_splitsCode_iff {push : ℕ → List String} {sizes : List ℕ} {x : Bytes}
    {pieces : List Bytes} (hsizes : ∀ size ∈ sizes, size < 2 ^ 63)
    (hpush : ∀ size ∈ sizes, ∀ main alt : Stack,
      Takes env (push size) (main, alt) (serializeScriptNum size :: main, alt))
    (main alt : Stack) :
    Takes env (splitsCode (sizes.map push)) (x :: main, alt) (pieces ++ main, alt) ↔
      splitAll sizes x = some pieces := by
  obtain ⟨hsome, hnone⟩ := takes_splitsCode push main alt sizes x hsizes hpush
  constructor
  · intro htakes
    cases hsplit : splitAll sizes x with
    | none =>
        rw [← List.append_nil (splitsCode _)] at htakes
        exact absurd htakes (hnone hsplit [] _)
    | some pieces' =>
        have hsame := takes_unique (hsome pieces' hsplit) htakes
        simp only [Prod.mk.injEq, List.append_cancel_right_eq] at hsame
        rw [hsame.1]
  · exact hsome pieces

/-! ### The two splits -/

namespace Visit

/-- A row of `m_scopePtr->push`. -/
def pushAll : List StackElement → Visit
  | [] => emit []
  | element :: elements => seq (push element) (pushAll elements)

end Visit

def CompoundTypeInfo.fieldElement (baseName : String) (field : CompoundFieldInfo) : StackElement :=
  ⟨baseName ++ "." ++ field.name, field.type, baseName ++ "." ++ field.name⟩

/-- The split of a compound value that is not split yet.  The picture is not rolled along with the
value.  The loop over the fields but the last is meant for a type that has fields. -/
def splitFields (baseName : String) (fields : List CompoundFieldInfo) : Visit := fun s =>
  let roll : List String :=
    match s.table.getPos baseName with
    | some pos => if pos = 0 then [] else emitRoll pos
    | none => []
  let splits := splitsCode ((fields.dropLast.map CompoundFieldInfo.byteSize).map fun byteSize : ℕ =>
    emitText (numberToScriptHex byteSize))
  (Visit.emit (roll ++ splits)).seq
    (Visit.pop.seq (Visit.pushAll (fields.map (CompoundTypeInfo.fieldElement baseName)))) s

/-- The branch of `visitFieldAccess` for compound types: the first access splits the value. -/
def splitCompoundType (info : CompoundTypeInfo) (baseName : String) (s : VisitorState) :
    Except String (List String × VisitorState × CompoundTypeInfo) :=
  if info.isSplitted then .ok ([], s, info)
  else
    (splitFields baseName info.fields s).map fun result =>
      (result.1, result.2, { info with isSplitted := true })

/-- `m_scopePtr->defineArray`; nothing happens where the name is in use. -/
def Visit.defineArray (info : ArrayInfo) : Visit := fun s =>
  .ok ([], { s with table := (s.table.defineArray info).2 })

def ArrayInfo.element (info : ArrayInfo) (index : ℕ) : StackElement :=
  ⟨info.getElementLabel index, info.elementType, info.getElementLabel index⟩

/-- The split of an array of `arraySize` elements at `position`; it is cut after every eighth byte,
whatever the size of an element is. -/
def splitElements (name : String) (arraySize position : ℕ) : Visit :=
  let info : ArrayInfo := ⟨name, "uint64", arraySize, true⟩
  (Visit.rollToTop position).seq (Visit.pop.seq
    ((Visit.emit (splitsCode (List.replicate (arraySize - 1) (emitOp .op8)))).seq
      ((Visit.defineArray info).seq (Visit.pushAll ((List.range arraySize).map info.element)))))

/-- `splitWholeArrayElement`; `wholeArrays` is `m_wholeArrayElements`. -/
def splitWholeArrayElement (wholeArrays : List (String × ℕ × ℕ)) (name : String)
    (s : VisitorState) :
    Except String (List String × VisitorState × List (String × ℕ × ℕ)) :=
  match wholeArrays.lookup name with
  | none => .ok ([], s, wholeArrays)
  | some (arraySize, _) =>
      match s.table.getPos name with
      | none => .ok ([], s, wholeArrays)
      | some position =>
          (splitElements name arraySize position s).map fun result =>
            (result.1, result.2, wholeArrays.filter fun entry => entry.1 ≠ name)

/-! ### Labels in place of the packed value -/

variable {s s' : VisitorState} {slots : NamedStacks} {code : List String} {name : String}

/-- **The fields are in place of the packed value**: the slot of the `i`-th label holds the `i`-th
part, and all other slots are where they were, at run time as in the picture. -/
structure PackedExact (env : ScriptEnv) (s : VisitorState) (slots : NamedStacks) (name : String)
    (labels : List String) (parts : List Bytes) (code : List String) (s' : VisitorState) : Prop where
  takes : Takes env code slots.values
    (parts.reverse ++ (takeNamed (s.table.resolveBindSymbol name) slots.1).map Prod.snd,
      slots.2.map Prod.snd)
  depicts : Depicts s'.table
    ((labels.zip parts).reverse ++ takeNamed (s.table.resolveBindSymbol name) slots.1, slots.2)

/-- Pushed symbols depict any values on top, the last one the topmost. -/
theorem depicts_pushAll {elements : List StackElement} {main alt : List (String × Bytes)}
    (h : Depicts s.table (main, alt)) (hrun : Visit.pushAll elements s = .ok (code, s')) :
    code = [] ∧ ∀ parts : List Bytes, parts.length = elements.length →
      Depicts s'.table (((elements.map StackElement.name).zip parts).reverse ++ main, alt) := by
  induction elements generalizing s main code with
  | nil =>
      cases hrun
      refine ⟨rfl, ?_⟩
      intro parts _
      exact h
  | cons element elements ih =>
      obtain ⟨code₁, s₁, code₂, hpush, hrest, rfl⟩ := Visit.seq_ok hrun
      obtain ⟨rfl, -, -, -, hdepicts⟩ := depicts_push h hpush
      refine ⟨(ih (hdepicts []) hrest).1, ?_⟩
      intro parts hlength
      cases parts with
      | nil => simp at hlength
      | cons part parts =>
          have hparts : parts.length = elements.length := by simpa using hlength
          have hnext := (ih (hdepicts part) hrest).2 parts hparts
          simpa using hnext

theorem Depicts.defineArray {st : SymbolTable} (h : Depicts st slots) (info : ArrayInfo) :
    Depicts (st.defineArray info).2 slots := by
  unfold SymbolTable.defineArray
  split_ifs
  · exact h
  · exact ⟨h.names, h.main_size, h.alt_size⟩

theorem takes_eight (main alt : Stack) :
    Takes env (emitOp .op8) (main, alt) (serializeScriptNum (8 : ℕ) :: main, alt) :=
  takes_op alt (by decide) rfl rfl

/-- What the split of an array emits, and what it makes of the picture. -/
theorem splitElements_run {arraySize position : ℕ} {main alt : List (String × Bytes)}
    (h : Depicts s.table (main, alt)) (hpos : position < main.length)
    (hrun : splitElements name arraySize position s = .ok (code, s')) :
    code = emitRoll position ++ splitsCode (List.replicate (arraySize - 1) (emitOp .op8)) ∧
      ∀ parts : List Bytes, parts.length = arraySize →
        Depicts s'.table ((((List.range arraySize).map
          (ArrayInfo.getElementLabel ⟨name, "uint64", arraySize, true⟩)).zip parts).reverse ++
            main.eraseIdx position, alt) := by
  obtain ⟨code₁, s₁, code₂, hroll, hafter, rfl⟩ := Visit.seq_ok hrun
  obtain ⟨code₃, s₂, code₄, hpop, hcut, rfl⟩ := Visit.seq_ok hafter
  obtain ⟨code₅, s₃, code₆, hemit, hdefine, rfl⟩ := Visit.seq_ok hcut
  obtain ⟨code₇, s₄, code₈, hdefined, hpush, rfl⟩ := Visit.seq_ok hdefine
  obtain ⟨s₁', hroll', -, -, hreaches⟩ := reaches_rollToTop ScriptEnv.plain h hpos
  obtain ⟨rfl, rfl⟩ := Prod.mk.inj (Except.ok.inj (hroll'.symm.trans hroll))
  cases hpop
  cases hemit
  cases hdefined
  have hpopped := (depicts_pop hreaches.depicts).1
  obtain ⟨rfl, hdepicts⟩ := depicts_pushAll (hpopped.defineArray _) hpush
  refine ⟨by simp, ?_⟩
  intro parts hlength
  simpa [ArrayInfo.element, Function.comp_def] using hdepicts parts (by simpa using hlength)

/-- Elements of one size are what every eighth byte cuts off exactly where the size is eight, or
there is nothing to cut. -/
theorem splitAll_eight_iff {elementByteSize : ℕ} {parts : List Bytes} (hne : parts ≠ [])
    (hsize : ∀ part ∈ parts, part.length = elementByteSize) :
    splitAll (List.replicate (parts.length - 1) 8) parts.flatten = some parts.reverse ↔
      elementByteSize = 8 ∨ parts.length = 1 := by
  obtain ⟨init, last, rfl⟩ := List.eq_nil_or_concat' parts |>.resolve_left hne
  have hlength : (init ++ [last]).length - 1 = init.length := by simp
  rw [hlength]
  constructor
  · intro h
    cases init with
    | nil => exact .inr rfl
    | cons first init =>
        left
        obtain ⟨top, htop, height⟩ := getLast_splitAll h
        rw [List.cons_append, List.reverse_cons] at htop
        have hbottom := List.cons.inj (List.append_inj_right' htop rfl)
        have hfirst := hsize first (by simp)
        rw [hbottom.1] at hfirst
        exact hfirst.symm.trans height
  · intro h
    have hsizes : List.replicate init.length 8 = init.map List.length := by
      refine (List.eq_replicate_iff.2 ⟨by simp, ?_⟩).symm
      intro size hmem
      obtain ⟨part, hpart, rfl⟩ := List.mem_map.1 hmem
      rcases h with rfl | hone
      · exact hsize part (by simp [hpart])
      · have hnil : init = [] := by simpa using hone
        simp [hnil] at hpart
    rw [hsizes, List.flatten_append, List.flatten_singleton, splitAll_parts last init]
    simp

/-- After the packed value is brought to the top, a row of cuts decides. -/
theorem takes_packed_iff {position : ℕ} {sizes : List ℕ} {push : ℕ → List String}
    {packed : Bytes} {pieces : List Bytes} (h : Depicts s.table slots)
    (hpos : s.table.getPos name = some position)
    (hpacked : ∀ slot, findNamed (s.table.resolveBindSymbol name) slots.1 = some slot →
      slot.2 = packed)
    (hsizes : ∀ size ∈ sizes, size < 2 ^ 63)
    (hpush : ∀ size ∈ sizes, ∀ main alt : Stack,
      Takes env (push size) (main, alt) (serializeScriptNum size :: main, alt)) :
    Takes env (emitRoll position ++ splitsCode (sizes.map push)) slots.values
        (pieces ++ (takeNamed (s.table.resolveBindSymbol name) slots.1).map Prod.snd,
          slots.2.map Prod.snd) ↔
      splitAll sizes packed = some pieces := by
  obtain ⟨hlt, hfind, htake⟩ := h.findNamed_of_getPos hpos
  have hroll := (reaches_rollToTop env h hlt).choose_spec.2.2.2.takes
  have hvalue : slots.1[position].2 = packed := hpacked _ hfind
  simp only [NamedStacks.values, Prod.map, List.map_cons, hvalue, ← htake] at hroll
  rw [← takes_splitsCode_iff hsizes hpush _ (slots.2.map Prod.snd)]
  constructor
  · intro htakes
    exact takes_of_append hroll htakes
  · intro htakes
    exact hroll.trans htakes

/-- **The split of an array is exact where there are elements, of eight bytes or only one.** -/
theorem splitElements_exact_iff {arraySize elementByteSize position : ℕ} {parts : List Bytes}
    (h : Depicts s.table slots) (hpos : s.table.getPos name = some position)
    (hcount : parts.length = arraySize) (hsize : ∀ part ∈ parts, part.length = elementByteSize)
    (hpacked : ∀ slot, findNamed (s.table.resolveBindSymbol name) slots.1 = some slot →
      slot.2 = parts.flatten)
    (hrun : splitElements name arraySize position s = .ok (code, s')) :
    PackedExact env s slots name ((List.range arraySize).map
        (ArrayInfo.getElementLabel ⟨name, "uint64", arraySize, true⟩)) parts code s' ↔
      1 ≤ arraySize ∧ (elementByteSize = 8 ∨ arraySize = 1) := by
  obtain ⟨hlt, -, htake⟩ := h.findNamed_of_getPos hpos
  obtain ⟨rfl, hdepicts⟩ := splitElements_run h hlt hrun
  have hcode : splitsCode (List.replicate (arraySize - 1) (emitOp .op8)) =
      splitsCode ((List.replicate (arraySize - 1) 8).map fun _ => emitOp .op8) := by
    rw [List.map_replicate]
  have hiff : Takes env
        (emitRoll position ++ splitsCode (List.replicate (arraySize - 1) (emitOp .op8))) slots.values
        (parts.reverse ++ (takeNamed (s.table.resolveBindSymbol name) slots.1).map Prod.snd,
          slots.2.map Prod.snd) ↔
      splitAll (List.replicate (arraySize - 1) 8) parts.flatten = some parts.reverse := by
    rw [hcode]
    refine takes_packed_iff h hpos hpacked ?_ ?_
    · intro size hmem
      rw [List.eq_of_mem_replicate hmem]
      decide
    · intro size hmem
      rw [List.eq_of_mem_replicate hmem]
      exact takes_eight
  have hnonempty : 1 ≤ arraySize → parts ≠ [] := by
    rintro hone rfl
    simp at hcount
    omega
  constructor
  · intro hexact
    have hsplit := hiff.1 hexact.takes
    have hlength := splitAll_length hsplit
    have hone : 1 ≤ arraySize := by
      simp only [List.length_reverse, List.length_replicate] at hlength
      omega
    rw [← hcount] at hsplit hone ⊢
    exact ⟨hone, (splitAll_eight_iff (hnonempty (hcount ▸ hone)) hsize).1 hsplit⟩
  · rintro ⟨hone, height⟩
    refine ⟨hiff.2 ?_, ?_⟩
    · rw [← hcount] at height ⊢
      exact (splitAll_eight_iff (hnonempty hone) hsize).2 height
    · rw [htake]
      exact hdepicts parts hcount

/-! ### Compound values -/

/-- What the split of a compound value emits, and what it makes of the picture: the top is taken
off, whatever it is. -/
theorem splitFields_run {fields : List CompoundFieldInfo} {position : ℕ} {top : String × Bytes}
    {main alt : List (String × Bytes)} (h : Depicts s.table (top :: main, alt))
    (hpos : s.table.getPos name = some position)
    (hrun : splitFields name fields s = .ok (code, s')) :
    code = emitRoll position ++ splitsCode ((fields.dropLast.map CompoundFieldInfo.byteSize).map
        fun byteSize : ℕ => emitText (numberToScriptHex byteSize)) ∧
      ∀ parts : List Bytes, parts.length = fields.length →
        Depicts s'.table (((fields.map fun field => (CompoundTypeInfo.fieldElement name field).name).zip
          parts).reverse ++ main, alt) := by
  unfold splitFields at hrun
  obtain ⟨code₁, s₁, code₂, hemit, hafter, rfl⟩ := Visit.seq_ok hrun
  obtain ⟨code₃, s₂, code₄, hpop, hpush, rfl⟩ := Visit.seq_ok hafter
  cases hemit
  cases hpop
  obtain ⟨rfl, hdepicts⟩ := depicts_pushAll (depicts_pop h).1 hpush
  refine ⟨?_, ?_⟩
  · simp only [hpos, List.append_nil]
    split_ifs with h0
    · rw [h0]
      rfl
    · rfl
  · intro parts hlength
    simpa [Function.comp_def] using hdepicts parts (by simpa using hlength)

theorem eraseIdx_ne_tail {first : String} {names : List String} {position : ℕ}
    (hlt : position < names.length) (hne : first ≠ names[position]) :
    (first :: names).eraseIdx (position + 1) ≠ names := by
  intro hsame
  have hperm : (names[position] :: names.eraseIdx position).Perm (first :: names.eraseIdx position) := by
    rw [List.eraseIdx_cons_succ] at hsame
    exact (List.getElem_cons_eraseIdx_perm hlt).trans (.of_eq hsame.symm)
  have hcount := hperm.count_eq names[position]
  rw [List.count_cons_self, List.count_cons_of_ne hne] at hcount
  omega

/-- The symbol on top is the packed value only where the packed value is on top. -/
theorem position_of_names {st : SymbolTable} {top : String × Bytes} {main alt : List (String × Bytes)}
    {position : ℕ} (h : Depicts st (top :: main, alt)) (hpos : st.getPos name = some position)
    (hsame : (takeNamed (st.resolveBindSymbol name) (top :: main)).map Prod.fst =
      main.map Prod.fst) : position = 0 := by
  obtain ⟨hlt, hfind, htake⟩ := h.findNamed_of_getPos hpos
  by_contra hne
  obtain ⟨below, rfl⟩ := Nat.exists_eq_succ_of_ne_zero hne
  have hbelow : below < (main.map Prod.fst).length := by simpa using hlt
  have hname : (main.map Prod.fst)[below] = st.resolveBindSymbol name := by
    simpa using name_of_findNamed hfind
  refine @eraseIdx_ne_tail top.1 _ _ hbelow ?_ ?_
  · intro htop
    rw [h.getPos, List.map_cons, List.findIdx?_cons, htop, hname] at hpos
    simp at hpos
  · refine Eq.trans ?_ hsame
    rw [htake]
    simp [List.eraseIdx_map]

/-- **The split of a compound value is exact where the value is on top.** -/
theorem splitFields_exact_iff {fields : List CompoundFieldInfo} {position : ℕ} {parts : List Bytes}
    (h : Depicts s.table slots) (hpos : s.table.getPos name = some position) (hne : fields ≠ [])
    (hsize : parts.map List.length = fields.map CompoundFieldInfo.byteSize)
    (hpacked : ∀ slot, findNamed (s.table.resolveBindSymbol name) slots.1 = some slot →
      slot.2 = parts.flatten)
    (hbound : parts.flatten.length < 2 ^ 63) (hrun : splitFields name fields s = .ok (code, s')) :
    PackedExact env s slots name
        (fields.map fun field => (CompoundTypeInfo.fieldElement name field).name) parts code s' ↔
      position = 0 := by
  obtain ⟨main, alt⟩ := slots
  obtain ⟨hlt, -, htake⟩ := h.findNamed_of_getPos hpos
  have hcount : parts.length = fields.length := by simpa using congrArg List.length hsize
  obtain ⟨top, main, rfl⟩ := List.exists_cons_of_length_pos (Nat.zero_lt_of_lt hlt)
  obtain ⟨rfl, hdepicts⟩ := splitFields_run h hpos hrun
  constructor
  · intro hexact
    refine position_of_names h hpos ?_
    have hnames := hexact.depicts.names.symm.trans (hdepicts parts hcount).names
    simpa [NamedStacks.values, Prod.map] using congrArg Prod.fst hnames
  · rintro rfl
    have hparts : parts ≠ [] := by
      rintro rfl
      exact hne (List.length_eq_zero_iff.1 hcount.symm)
    obtain ⟨init, last, rfl⟩ := List.eq_nil_or_concat' parts |>.resolve_left hparts
    have hsizes : fields.dropLast.map CompoundFieldInfo.byteSize = init.map List.length := by
      rw [List.map_dropLast, ← hsize]
      simp
    refine ⟨(takes_packed_iff h hpos hpacked ?_ fun size _ => takes_number size).2 ?_, ?_⟩
    · rw [hsizes]
      intro size hmem
      obtain ⟨part, hpart, rfl⟩ := List.mem_map.1 hmem
      have hwithin := (List.sublist_flatten_of_mem (List.mem_append_left [last] hpart)).length_le
      omega
    · rw [hsizes, List.flatten_append, List.flatten_singleton, splitAll_parts last init]
      simp
    · rw [htake]
      exact hdepicts _ hcount

/-! ### Both splits -/

/-- A packed value: an array among those that are still whole, or a compound value. -/
inductive PackedLayout where
  | array (wholeArrays : List (String × ℕ × ℕ))
  | compound (info : CompoundTypeInfo)
  deriving DecidableEq, Repr

namespace PackedLayout

/-- The split, as far as the instructions and the symbolic stacks go. -/
def split (layout : PackedLayout) (name : String) : Visit := fun s =>
  match layout with
  | .array wholeArrays =>
      (splitWholeArrayElement wholeArrays name s).map fun result => (result.1, result.2.1)
  | .compound info => (splitCompoundType info name s).map fun result => (result.1, result.2.1)

/-- The value is registered and still packed. -/
def IsPacked (layout : PackedLayout) (name : String) : Prop :=
  match layout with
  | .array wholeArrays => (wholeArrays.lookup name).isSome
  | .compound info => info.isSplitted = false ∧ info.fields ≠ []

def labels (layout : PackedLayout) (name : String) : List String :=
  match layout with
  | .array wholeArrays =>
      let arraySize := ((wholeArrays.lookup name).getD (0, 0)).1
      (List.range arraySize).map (ArrayInfo.getElementLabel ⟨name, "uint64", arraySize, true⟩)
  | .compound info => info.fields.map fun field => (CompoundTypeInfo.fieldElement name field).name

def sizes (layout : PackedLayout) (name : String) : List ℕ :=
  match layout with
  | .array wholeArrays =>
      let (arraySize, elementByteSize) := (wholeArrays.lookup name).getD (0, 0)
      List.replicate arraySize elementByteSize
  | .compound info => info.fields.map CompoundFieldInfo.byteSize

/-- What the split relies on: an array has elements, of eight bytes or only one, and a compound value
is on top. -/
def Splits (layout : PackedLayout) (name : String) (position : ℕ) : Prop :=
  match layout with
  | .array _ =>
      layout.sizes name ≠ [] ∧ ((layout.sizes name).length = 1 ∨ ∀ size ∈ layout.sizes name, size = 8)
  | .compound _ => position = 0

end PackedLayout

/-- **A packed value is split into its fields exactly where it is an array of eight-byte elements, or
of a single one, or a compound value on top of the stack.** -/
theorem packed_split_iff {layout : PackedLayout} {position : ℕ} {parts : List Bytes}
    (h : Depicts s.table slots) (hpos : s.table.getPos name = some position)
    (hlayout : layout.IsPacked name) (hsize : parts.map List.length = layout.sizes name)
    (hpacked : ∀ slot, findNamed (s.table.resolveBindSymbol name) slots.1 = some slot →
      slot.2 = parts.flatten)
    (hbound : parts.flatten.length < 2 ^ 63) (hrun : layout.split name s = .ok (code, s')) :
    PackedExact env s slots name (layout.labels name) parts code s' ↔
      layout.Splits name position := by
  cases layout with
  | array wholeArrays =>
      obtain ⟨⟨arraySize, elementByteSize⟩, hentry⟩ := Option.isSome_iff_exists.1 hlayout
      have hsizes : (PackedLayout.array wholeArrays).sizes name =
          List.replicate arraySize elementByteSize := by
        simp [PackedLayout.sizes, hentry]
      have hlabels : (PackedLayout.array wholeArrays).labels name = (List.range arraySize).map
          (ArrayInfo.getElementLabel ⟨name, "uint64", arraySize, true⟩) := by
        simp [PackedLayout.labels, hentry]
      rw [hsizes] at hsize
      have hcount : parts.length = arraySize := by simpa using congrArg List.length hsize
      have heach : ∀ part ∈ parts, part.length = elementByteSize := by
        intro part hpart
        have hmem : part.length ∈ List.replicate arraySize elementByteSize :=
          hsize ▸ List.mem_map_of_mem hpart
        exact List.eq_of_mem_replicate hmem
      have hsplit : splitElements name arraySize position s = .ok (code, s') := by
        simp only [PackedLayout.split, splitWholeArrayElement, hentry, hpos] at hrun
        cases hrun' : splitElements name arraySize position s with
        | error error => simp [hrun', Except.map] at hrun
        | ok result => simpa [hrun', Except.map, Prod.ext_iff] using hrun
      rw [hlabels, splitElements_exact_iff h hpos hcount heach hpacked hsplit]
      simp only [PackedLayout.Splits, hsizes, List.length_replicate, List.mem_replicate, ne_eq,
        List.replicate_eq_nil_iff]
      constructor
      · rintro ⟨hone, rfl | hsingle⟩
        · exact ⟨by omega, .inr fun size hmem => hmem.2⟩
        · exact ⟨by omega, .inl hsingle⟩
      · rintro ⟨hsome, hsingle | height⟩
        · exact ⟨by omega, .inr hsingle⟩
        · exact ⟨by omega, .inl (height elementByteSize ⟨hsome, rfl⟩)⟩
  | compound info =>
      obtain ⟨hpackedYet, hfields⟩ := hlayout
      have hsplit : splitFields name info.fields s = .ok (code, s') := by
        simp only [PackedLayout.split, splitCompoundType, hpackedYet, Bool.false_eq_true,
          if_false] at hrun
        cases hrun' : splitFields name info.fields s with
        | error error => simp [hrun', Except.map] at hrun
        | ok result => simpa [hrun', Except.map, Prod.ext_iff] using hrun
      exact splitFields_exact_iff h hpos hfields hsize hpacked hbound hsplit

def belowOther : VisitorState where
  table := ⟨[⟨"x", "", ""⟩, ⟨"p", "", ""⟩], [], [], [], [], [], [], 0, 0⟩

theorem depicts_belowOther (x p : Bytes) : Depicts belowOther.table ([("x", x), ("p", p)], []) :=
  ⟨rfl, by decide, by decide⟩

def bytePair : CompoundTypeInfo where
  name := "p"
  fields := [⟨"a", "bytes", 1⟩, ⟨"b", "bytes", 1⟩]

theorem split_belowOther_array :
    (PackedLayout.array [("p", 2, 8)]).split "p" belowOther = .ok (["7c", "58", "7f"],
      ⟨⟨[⟨"p[0x51]", "uint64", "p[0x51]"⟩, ⟨"p[0x00]", "uint64", "p[0x00]"⟩, ⟨"x", "", ""⟩], [],
        ["p[0x00]", "p[0x51]"], ["p"], [], [],
        [("p", { name := "p", type := "uint64[]", arrayInfo := some ⟨"p", "uint64", 2, true⟩ })],
        0, 0⟩, [], 0⟩) := by
  decide +kernel

theorem packed_split_iff_array :
    PackedExact ScriptEnv.plain belowOther
      ([("x", [0x07]), ("p", [0, 1, 2, 3, 4, 5, 6, 7, 8, 9, 10, 11, 12, 13, 14, 15])], []) "p"
      ((PackedLayout.array [("p", 2, 8)]).labels "p")
      [[0, 1, 2, 3, 4, 5, 6, 7], [8, 9, 10, 11, 12, 13, 14, 15]] ["7c", "58", "7f"]
      ⟨⟨[⟨"p[0x51]", "uint64", "p[0x51]"⟩, ⟨"p[0x00]", "uint64", "p[0x00]"⟩, ⟨"x", "", ""⟩], [],
        ["p[0x00]", "p[0x51]"], ["p"], [], [],
        [("p", { name := "p", type := "uint64[]", arrayInfo := some ⟨"p", "uint64", 2, true⟩ })],
        0, 0⟩, [], 0⟩ := by
  have hpos : belowOther.table.getPos "p" = some 1 := by decide
  have hpacked : ∀ slot, findNamed (belowOther.table.resolveBindSymbol "p")
      [("x", [0x07]), ("p", [0, 1, 2, 3, 4, 5, 6, 7, 8, 9, 10, 11, 12, 13, 14, 15])] = some slot →
      slot.2 = List.flatten [[0, 1, 2, 3, 4, 5, 6, 7], [8, 9, 10, 11, 12, 13, 14, 15]] := by
    intro slot hslot
    obtain rfl := Option.some.inj hslot
    rfl
  have hsplits : (PackedLayout.array [("p", 2, 8)]).Splits "p" 1 :=
    ⟨by decide, .inr fun size hmem => List.eq_of_mem_replicate (n := 2) hmem⟩
  have hlayout : (PackedLayout.array [("p", 2, 8)]).IsPacked "p" := by
    show ([("p", 2, 8)].lookup "p").isSome
    rfl
  exact (packed_split_iff (depicts_belowOther _ _) hpos hlayout rfl hpacked (by decide)
    split_belowOther_array).2 hsplits

/-- **A pair below another slot.** The machine brings the pair to the top and cuts it; the picture
takes the other slot off instead and keeps the pair. -/
theorem compound_split_diverges :
    ∃ code s', (PackedLayout.compound bytePair).split "p" belowOther = .ok (code, s') ∧
      outcome ScriptEnv.plain code [[0x07], [0x01, 0x02]] [] = some ([[0x02], [0x01], [0x07]], []) ∧
      s'.table.main.map StackElement.name = ["p.b", "p.a", "p"] ∧
      ¬ PackedExact ScriptEnv.plain belowOther ([("x", [0x07]), ("p", [0x01, 0x02])], []) "p"
        ((PackedLayout.compound bytePair).labels "p") [[0x01], [0x02]] code s' := by
  refine ⟨["7c", "51", "7f"], ⟨⟨[⟨"p.b", "bytes", "p.b"⟩, ⟨"p.a", "bytes", "p.a"⟩, ⟨"p", "", ""⟩], [],
    ["p.a", "p.b"], [], [], [], [], 0, 0⟩, [], 0⟩, by decide +kernel, by decide +kernel, rfl, ?_⟩
  intro hexact
  exact absurd (congrArg Prod.fst hexact.depicts.names) (by decide)

end AtomicProof
