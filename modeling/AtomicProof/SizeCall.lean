/-
The lowering of `Size`.

`Size(x)` compiles to `OP_SIZE`, which measures what lies on top and leaves it there.  The lowering in
`src/src/compiler/ast_to_bytecode_visitor.cpp` looks at the name that the operand left on the picture: a
script is emitted, a `CompilerPlaceholder` lies on top already, and any other name is taken off the
picture again.  The slot of such a name is measured where it lies on top; nothing brings it there.

Main definitions:

* `processSize` — the lowering;
* `SizeOperand`, `SizeOperand.Evaluates` — the operands and their values;
* `Measures` — the code leaves the size that the interpreter returns;
* `SizeOperand.Misread` — the operands that are not measured.

Main results:

* `size_measures_iff` — **an operand is measured if and only if it is not misread**;
* `size_of_the_top` — a variable below the top.
-/

import AtomicProof.Operands

set_option autoImplicit false

namespace AtomicProof

open BuiltinRuntime

/-! ### The lowering -/

/-- What the lowering does about the name on top of the picture. -/
def takeOperand (name : String) : Visit :=
  if isScript name then Visit.emit (emitText name)
  else if CompilerPlaceholder.isPlaceholder name then Visit.emit []
  else Visit.pop

/-- The result of `Size` and its instruction. -/
def pushSize : Visit := Visit.seq (Visit.pushPlaceholder "") (Visit.emit (emitOp .opSize))

/-- The lowering after the operand was visited. -/
def measureTop : Visit := fun s =>
  match s.table.main with
  | [] => .error "cannot read the top of an empty main stack"
  | top :: _ => Visit.seq (takeOperand top.name) pushSize s

/-- The lowering of `Size(...)`; `visit` is `visitExpr` on the operand. -/
def processSize (visit : Visit) : Visit := Visit.seq visit measureTop

/-! ### Operands -/

/-- A name that the visitor takes for the name of a slot. -/
def IsSlotName (name : String) : Prop :=
  isScript name = false ∧ CompilerPlaceholder.isPlaceholder name = false

/-- The operands of `Size`: identifiers, fields and elements that have a slot, literals, and expressions
that leave a result. -/
inductive SizeOperand
  | identifier (name : String) (plain : IsSlotName name)
  | slot (element : StackElement) (plain : IsSlotName element.name)
  | literal (constant : Literal) (fits : constant.Fits)
  | expression (visit : Visit)

namespace SizeOperand

/-- `visitExpr` on an operand. -/
def visit : SizeOperand → Visit
  | identifier name _ => visitIdentifier name
  | slot element _ => Visit.push element
  | literal constant _ => visitLiteral constant
  | expression visit => visit

/-- An operand has a value; `rest` is what its evaluation leaves of the other slots. -/
def Evaluates (env : ScriptEnv) (s : VisitorState) (slots : NamedStacks) :
    SizeOperand → NamedStacks → Bytes → Prop
  | identifier name _, rest, v => rest = slots ∧ (s.place name).Holds env slots v
  | slot element _, rest, v =>
      rest = slots ∧ ∃ pos, s.table.getPos element.name = some pos ∧ (Place.main pos).Holds env slots v
  | literal constant _, rest, v =>
      rest = slots ∧ constant.element.isSome ∧
        ∃ value, evalLiteral constant = .ok value ∧ value.toScriptBytes = .ok v
  | expression visit, rest, v =>
      ∃ code s₁ name, visit s = .ok (code, s₁) ∧ isScript name = false ∧
        CompilerPlaceholder.isPlaceholder name = true ∧
        Reaches env s slots code s₁ ((name, v) :: rest.1, rest.2)

/-- The operands that are not measured: a name whose slot is not on top, text that is no script, and a
literal that the interpreter measures differently. -/
def Misread (s : VisitorState) : SizeOperand → Prop
  | identifier name _ =>
      match s.place name with
      | .text script => isScript script = false
      | .main pos => pos ≠ 0
      | .alt _ => True
      | .nowhere => False
  | slot element _ => ∃ pos, s.table.getPos element.name = some (pos + 1)
  | literal constant _ => constant.element.isSome ∧ constant.Differs
  | expression _ => False

end SizeOperand

/-- The code leaves the size that the interpreter returns for the bytes `v`, above the slot of the operand,
if it has one of its own, and above the other slots. -/
def Measures (env : ScriptEnv) (s : VisitorState) (slots rest : NamedStacks) (v : Bytes)
    (code : List String) (s' : VisitorState) : Prop :=
  ∃ name size kept, kept.length ≤ 1 ∧
    (∀ value : RuntimeValue, value.toScriptBytes = .ok v →
      ∃ result, callFunction env.toEnv "Size" [value] = .ok result ∧
        result.toScriptBytes = .ok size) ∧
    Reaches env s slots code s' ((name, size) :: (kept ++ rest.1), rest.2)

/-! ### The interpreter -/

theorem callFunction_size (env : Env) {value : RuntimeValue} {v : Bytes}
    (h : value.toScriptBytes = .ok v) :
    ∃ result, callFunction env "Size" [value] = .ok result ∧
      result.toScriptBytes = .ok (serializeScriptNum v.length) := by
  refine ⟨.fromInt v.length, ?_, ?_⟩
  · rw [show "Size" = Builtin.size.name from rfl, callFunction_name]
    show value.toScriptBytes.bind _ = _
    rw [h]
    rfl
  · rw [RuntimeValue.fromInt, RuntimeValue.toScriptBytes, RuntimeCodec.serializeScriptNum_eq]

/-! ### Running the code -/

variable {env : ScriptEnv} {s s' s₁ : VisitorState} {slots rest : NamedStacks} {code : List String}
  {v : Bytes}
variable {element : StackElement} {pos : ℕ}

theorem takes_size (x : Bytes) (main alt : Stack) :
    Takes env (emitOp .opSize) (x :: main, alt) (serializeScriptNum x.length :: x :: main, alt) :=
  takes_op alt (by decide) rfl rfl

theorem not_takes_size (alt : Stack) (t : Stack × Stack) : ¬ Takes env (emitOp .opSize) ([], alt) t := by
  intro h
  have hfinal := h [] rfl
  have hnone : final env (emitOp .opSize) ⟨[], alt, [], false⟩ = none := by
    rw [emitOp, final_singleton rfl, execAtom, completeInstruction_opcodeToHex (by decide)]
    rfl
  rw [hnone] at hfinal
  cases hfinal

theorem reaches_pushSize {slot : String × Bytes} {main alt : List (String × Bytes)}
    (h : Depicts s.table (slot :: main, alt)) (hrun : pushSize s = .ok (code, s')) :
    ∃ name, Reaches env s (slot :: main, alt) code s'
      ((name, serializeScriptNum slot.2.length) :: slot :: main, alt) := by
  obtain ⟨code₁, s₁, code₂, hpush, hemit, rfl⟩ := Visit.seq_ok hrun
  obtain ⟨rfl, rfl⟩ := Prod.mk.inj (Except.ok.inj hemit)
  have hnext : Depicts ({ s with nextId := s.nextId + 1 } : VisitorState).table (slot :: main, alt) := h
  obtain ⟨rfl, -, -, hreaches⟩ :=
    reaches_push hnext (takes_size slot.2 (main.map Prod.snd) (alt.map Prod.snd)) hpush
  exact ⟨_, hreaches.takes, hreaches.depicts, hreaches.resolve⟩

theorem pushSize_spec {main alt : List (String × Bytes)} (h : Depicts s.table (main, alt))
    (hrun : pushSize s = .ok (code, s')) :
    code = emitOp .opSize ∧ s'.table.resolveBindSymbol = s.table.resolveBindSymbol ∧
      ∃ name, ∀ value, Depicts s'.table ((name, value) :: main, alt) := by
  obtain ⟨code₁, s₁, code₂, hpush, hemit, rfl⟩ := Visit.seq_ok hrun
  obtain ⟨rfl, rfl⟩ := Prod.mk.inj (Except.ok.inj hemit)
  have hnext : Depicts ({ s with nextId := s.nextId + 1 } : VisitorState).table (main, alt) := h
  obtain ⟨rfl, -, -, hresolve, hdepicts⟩ := depicts_push hnext hpush
  exact ⟨rfl, hresolve, _, hdepicts⟩

/-- A name on top of the picture is the name that the lowering looks at. -/
theorem takeOperand_of_top {slot : String × Bytes} {main alt : List (String × Bytes)}
    (h : Depicts s.table (slot :: main, alt)) (hrun : measureTop s = .ok (code, s')) :
    Visit.seq (takeOperand slot.1) pushSize s = .ok (code, s') := by
  have hnames := congrArg Prod.fst h.names
  unfold measureTop at hrun
  cases hmain : s.table.main with
  | nil =>
      simp [SymbolTable.names, hmain] at hnames
  | cons top below =>
      rw [hmain] at hrun
      have htop : top.name = slot.1 := by
        simp only [SymbolTable.names, hmain, List.map_cons, Prod.map] at hnames
        exact (List.cons.inj hnames).1
      rw [← htop]
      exact hrun

/-- A script is emitted and measured. -/
theorem reaches_text {w : Bytes} (h : Depicts s.table slots)
    (hscript : isScript element.name = true) (hpushes : PushesText env element.name w)
    (hrun : processSize (Visit.push element) s = .ok (code, s')) :
    ∃ name, Reaches env s slots code s'
      ((name, serializeScriptNum w.length) :: (element.name, w) :: slots.1, slots.2) := by
  obtain ⟨code₁, s₁, code₂, hpush, hmeasure, rfl⟩ := Visit.seq_ok hrun
  obtain ⟨rfl, -, -, hreaches⟩ := reaches_push h (hpushes _ _) hpush
  obtain ⟨code₃, s₂, code₄, htake, hsize, rfl⟩ :=
    Visit.seq_ok (takeOperand_of_top hreaches.depicts hmeasure)
  rw [takeOperand, if_pos hscript] at htake
  obtain ⟨rfl, rfl⟩ := Prod.mk.inj (Except.ok.inj htake)
  obtain ⟨name, hname⟩ := @reaches_pushSize env _ _ _ _ _ _ hreaches.depicts hsize
  exact ⟨name, hreaches.trans hname⟩

/-- The slot of a name is not touched: `OP_SIZE` is all there is. -/
theorem processSize_slot (h : Depicts s.table slots) (hplain : isScript element.name = false)
    (hrun : processSize (Visit.push element) s = .ok (code, s')) :
    code = emitOp .opSize ∧ (CompilerPlaceholder.isPlaceholder element.name = false →
      s'.table.resolveBindSymbol = s.table.resolveBindSymbol ∧
        ∃ name, ∀ value, Depicts s'.table ((name, value) :: slots.1, slots.2)) := by
  obtain ⟨code₁, s₁, code₂, hpush, hmeasure, rfl⟩ := Visit.seq_ok hrun
  obtain ⟨rfl, -, -, hresolve, hdepicts⟩ := depicts_push h hpush
  obtain ⟨code₃, s₂, code₄, htake, hsize, rfl⟩ :=
    Visit.seq_ok (takeOperand_of_top (hdepicts []) hmeasure)
  rw [takeOperand, if_neg (by rw [hplain]; exact Bool.false_ne_true)] at htake
  by_cases hplaceholder : CompilerPlaceholder.isPlaceholder element.name = true
  · rw [if_pos hplaceholder] at htake
    obtain ⟨rfl, rfl⟩ := Prod.mk.inj (Except.ok.inj htake)
    obtain ⟨rfl, -⟩ := pushSize_spec (hdepicts []) hsize
    exact ⟨rfl, fun hnot => absurd hplaceholder (by rw [hnot]; exact Bool.false_ne_true)⟩
  · rw [if_neg hplaceholder] at htake
    obtain ⟨rfl, rfl⟩ := Prod.mk.inj (Except.ok.inj htake)
    obtain ⟨hpop, hpopResolve⟩ := depicts_pop (hdepicts [])
    obtain ⟨rfl, hsizeResolve, name, hname⟩ := pushSize_spec hpop hsize
    exact ⟨rfl, fun _ => ⟨hsizeResolve.trans (hpopResolve.trans hresolve), name, hname⟩⟩

/-! ### Slots with other values -/

theorem Depicts.of_names {st : SymbolTable} {slots slots' : NamedStacks} (h : Depicts st slots)
    (hmain : slots'.1.map Prod.fst = slots.1.map Prod.fst)
    (halt : slots'.2.map Prod.fst = slots.2.map Prod.fst) : Depicts st slots' := by
  refine ⟨?_, h.main_size, h.alt_size⟩
  rw [h.names, Prod.map, Prod.map, hmain, halt]

/-- The slots with the value `[0x00]` at one place, and nothing in all others. -/
def pointed (pos : ℕ) (slots : List (String × Bytes)) : List (String × Bytes) :=
  slots.mapIdx fun i slot => (slot.1, if i = pos then [0x00] else [])

theorem pointed_names (pos : ℕ) (slots : List (String × Bytes)) :
    (pointed pos slots).map Prod.fst = slots.map Prod.fst := by
  refine List.ext_getElem (by simp [pointed]) ?_
  intro i h₁ h₂
  simp [pointed]

theorem pointed_get {slots : List (String × Bytes)} (h : pos < slots.length) :
    (pointed pos slots)[pos]? = some (slots[pos].1, [0x00]) := by
  simp [pointed, h]

theorem pointed_head (hpos : pos ≠ 0) {slots : List (String × Bytes)} {x : Bytes}
    {below : Stack} (h : (pointed pos slots).map Prod.snd = x :: below) : x = [] := by
  cases slots with
  | nil => cases h
  | cons slot slots =>
      simp only [pointed, List.mapIdx_cons, List.map_cons, if_neg hpos.symm] at h
      exact (List.cons.inj h).1.symm

theorem Measures.size {size : Bytes} (h : ∀ value : RuntimeValue, value.toScriptBytes = .ok v →
      ∃ result, callFunction env.toEnv "Size" [value] = .ok result ∧
        result.toScriptBytes = .ok size) : size = serializeScriptNum v.length := by
  obtain ⟨result, hresult, hsize⟩ := h (.bytes v "bytes") rfl
  obtain ⟨result', hresult', hsize'⟩ :=
    callFunction_size env.toEnv (show (RuntimeValue.bytes v "bytes").toScriptBytes = .ok v from rfl)
  obtain rfl := Except.ok.inj (hresult.symm.trans hresult')
  exact Except.ok.inj (hsize.symm.trans hsize')

/-- An empty slot on top has not the size of a value of one byte. -/
theorem not_measures (htop : ∀ x below, slots.values.1 = x :: below → x = []) :
    ¬ Measures env s slots rest [0x00] (emitOp .opSize) s' := by
  rintro ⟨name, size, kept, -, hsize, hreaches⟩
  have hone := Measures.size hsize
  have htakes := hreaches.takes
  cases hmain : slots.values.1 with
  | nil =>
      rw [show slots.values = ([], slots.values.2) from Prod.ext hmain rfl] at htakes
      exact not_takes_size _ _ htakes
  | cons x below =>
      obtain rfl := htop x below hmain
      rw [show slots.values = ([] :: below, slots.values.2) from Prod.ext hmain rfl] at htakes
      have heq := takes_unique htakes (takes_size [] below slots.values.2)
      have hvalue := congrArg (fun t => t.1.head?) heq
      have hempty : size = serializeScriptNum 0 := Option.some.inj hvalue
      rw [hone] at hempty
      exact absurd hempty (by decide)

/-! ### The operands -/

/-- The name that an identifier leaves on the picture. -/
theorem place_spec (s : VisitorState) (name : String) :
    match s.place name with
    | .text script => (s.identifierElement name).name = script
    | .main pos => (s.identifierElement name).name = name ∧ s.table.getPos name = some pos
    | .alt pos => (s.identifierElement name).name = name ∧
        posOf (s.table.resolveBindSymbol name) s.table.alt = some pos
    | .nowhere => True := by
  unfold VisitorState.place
  by_cases hbound : name = "self" ∨ (s.table.resolveBindSymbol name ≠ name ∧
      isAnglePlaceholder (s.table.resolveBindSymbol name))
  · rw [if_pos hbound]
  · rw [if_neg hbound]
    rw [not_or] at hbound
    cases hpos : s.table.getPos name with
    | some pos =>
        refine ⟨?_, rfl⟩
        unfold VisitorState.identifierElement
        rw [if_neg hbound.1, if_neg hbound.2, hpos]
        rfl
    | none =>
        dsimp only
        cases hfixed : s.getFixed name with
        | some fixedVar => rfl
        | none =>
            rw [if_neg (show ¬ (none : Option StackElement).isSome = true from Bool.false_ne_true)]
            cases halt : posOf (s.table.resolveBindSymbol name) s.table.alt with
            | none => trivial
            | some pos =>
                refine ⟨?_, rfl⟩
                unfold VisitorState.identifierElement
                rw [if_neg hbound.1, if_neg hbound.2, hpos, hfixed]
                rfl

/-- A slot of a plain name on top is measured. -/
theorem measures_top (h : Depicts s.table slots) (hplain : IsSlotName element.name)
    (hrun : processSize (Visit.push element) s = .ok (code, s'))
    (hv : (Place.main 0).Holds env slots v) : Measures env s slots slots v code s' := by
  obtain ⟨rfl, hslot⟩ := processSize_slot h hplain.1 hrun
  obtain ⟨hresolve, name, hname⟩ := hslot hplain.2
  obtain ⟨slotName, hget⟩ := hv
  refine ⟨name, serializeScriptNum v.length, [], Nat.zero_le _,
    fun value => callFunction_size env.toEnv, ?_, hname _, hresolve⟩
  obtain ⟨main, alt⟩ := slots
  cases main with
  | nil => cases hget
  | cons slot below =>
      obtain rfl : slot = (slotName, v) := Option.some.inj hget
      exact takes_size v (below.map Prod.snd) (alt.map Prod.snd)

theorem not_measures_below (h : Depicts s.table slots)
    (hplain : IsSlotName element.name) (hpos : pos ≠ 0) (hlt : pos < slots.1.length)
    (hrun : processSize (Visit.push element) s = .ok (code, s')) :
    ∃ slots', Depicts s.table slots' ∧ (Place.main pos).Holds env slots' [0x00] ∧
      ¬ Measures env s slots' slots' [0x00] code s' := by
  obtain ⟨rfl, -⟩ := processSize_slot h hplain.1 hrun
  refine ⟨(pointed pos slots.1, slots.2), h.of_names (pointed_names _ _) rfl,
    ⟨_, pointed_get hlt⟩, not_measures fun x below hmain => pointed_head hpos hmain⟩

theorem exists_blank (h : Depicts s.table slots) : ∃ slots' : NamedStacks, Depicts s.table slots' ∧
    slots'.2 = slots.2 ∧ ∀ x below, slots'.values.1 = x :: below → x = [] := by
  refine ⟨(slots.1.map fun slot => (slot.1, []), slots.2), h.of_names ?_ rfl, rfl, ?_⟩
  · rw [List.map_map]
    rfl
  · intro x below hmain
    cases hslots : slots.1 with
    | nil =>
        simp [NamedStacks.values, hslots] at hmain
    | cons slot rest =>
        simp only [NamedStacks.values, Prod.map, hslots, List.map_cons] at hmain
        exact (List.cons.inj hmain).1.symm

/-- The property of an operand: wherever the picture is right and the operand has a value, it is
measured. -/
def MeasuredAlways (env : ScriptEnv) (s : VisitorState) (operand : SizeOperand) (code : List String)
    (s' : VisitorState) : Prop :=
  ∀ slots rest v, Depicts s.table slots → operand.Evaluates env s slots rest v →
    Measures env s slots rest v code s'

theorem identifier_measured_iff {name : String} (plain : IsSlotName name)
    (h : Depicts s.table slots)
    (hrun : processSize (visitIdentifier name) s = .ok (code, s')) :
    MeasuredAlways env s (.identifier name plain) code s' ↔
      ¬ (SizeOperand.identifier name plain).Misread s := by
  have hrun' : processSize (Visit.push (s.identifierElement name)) s = .ok (code, s') := hrun
  have hspec := place_spec s name
  simp only [MeasuredAlways, SizeOperand.Evaluates, SizeOperand.Misread]
  cases hplace : s.place name with
  | text script =>
      simp only [hplace] at hspec ⊢
      cases hscript : isScript script with
      | false =>
          refine iff_of_false ?_ (not_not_intro rfl)
          intro hall
          obtain ⟨slots', hslots, -, htop⟩ := exists_blank h
          obtain ⟨rfl, -⟩ := processSize_slot hslots (by rw [hspec, hscript]) hrun'
          have hholds : (Place.text script).Holds env slots' [0x00] := by
            intro htrue
            rw [hscript] at htrue
            cases htrue
          exact not_measures htop (hall slots' slots' [0x00] hslots ⟨rfl, hholds⟩)
      | true =>
          refine iff_of_true ?_ nofun
          rintro slots' rest' v hslots ⟨rfl, hholds⟩
          obtain ⟨sizeName, hreaches⟩ := reaches_text hslots (by rw [hspec, hscript])
            (by rw [hspec]; exact hholds hscript) hrun'
          exact ⟨sizeName, _, [_], Nat.le_refl 1, fun value => callFunction_size env.toEnv, hreaches⟩
  | main pos =>
      simp only [hplace] at hspec ⊢
      obtain ⟨hname, hpos⟩ := hspec
      have hplain : IsSlotName (s.identifierElement name).name := by
        rw [hname]
        exact plain
      obtain ⟨hlt, -⟩ := h.findNamed_of_getPos hpos
      constructor
      · intro hall hbelow
        obtain ⟨slots', hslots, hvalue, hnot⟩ := not_measures_below h hplain hbelow hlt hrun'
        exact hnot (hall slots' slots' [0x00] hslots ⟨rfl, hvalue⟩)
      · rintro htop slots' rest' v hslots ⟨rfl, hvalue⟩
        obtain rfl := not_ne_iff.1 htop
        exact measures_top hslots hplain hrun' hvalue
  | alt pos =>
      simp only [hplace] at hspec ⊢
      obtain ⟨hname, hpos⟩ := hspec
      refine iff_of_false ?_ (not_not_intro trivial)
      intro hall
      obtain ⟨slots', hslots, -, htop⟩ := exists_blank h
      obtain ⟨rfl, -⟩ := processSize_slot hslots (by rw [hname]; exact plain.1) hrun'
      have hlt : pos < slots'.2.length := by
        rw [← hslots.alt_length]
        exact (List.findIdx?_eq_some_iff_getElem.1 hpos).1
      have hdepicts : Depicts s.table (slots'.1, pointed pos slots'.2) :=
        hslots.of_names rfl (pointed_names _ _)
      have htop' : ∀ x below,
          (NamedStacks.values (slots'.1, pointed pos slots'.2)).1 = x :: below → x = [] := htop
      exact not_measures htop' (hall (slots'.1, pointed pos slots'.2) _ [0x00] hdepicts
        ⟨rfl, _, pointed_get hlt⟩)
  | nowhere =>
      simp only [Place.Holds]
      exact iff_of_true (fun slots' rest' v _ heval => heval.2.elim) id

theorem slot_measured_iff (plain : IsSlotName element.name)
    (h : Depicts s.table slots) (hrun : processSize (Visit.push element) s = .ok (code, s')) :
    MeasuredAlways env s (.slot element plain) code s' ↔
      ¬ (SizeOperand.slot element plain).Misread s := by
  simp only [MeasuredAlways, SizeOperand.Evaluates, SizeOperand.Misread]
  constructor
  · rintro hall ⟨pos, hpos⟩
    obtain ⟨hlt, -⟩ := h.findNamed_of_getPos hpos
    obtain ⟨slots', hslots, hvalue, hnot⟩ :=
      not_measures_below h plain (Nat.succ_ne_zero pos) hlt hrun
    exact hnot (hall slots' slots' [0x00] hslots ⟨rfl, pos + 1, hpos, hvalue⟩)
  · rintro hread slots' rest' v hslots ⟨rfl, pos, hpos, hvalue⟩
    cases pos with
    | zero => exact measures_top hslots plain hrun hvalue
    | succ pos => exact absurd ⟨pos, hpos⟩ hread

theorem literal_measured_iff {constant : Literal} (fits : constant.Fits) (h : Depicts s.table slots)
    (hrun : processSize (visitLiteral constant) s = .ok (code, s')) :
    MeasuredAlways env s (.literal constant fits) code s' ↔
      ¬ (SizeOperand.literal constant fits).Misread s := by
  simp only [MeasuredAlways, SizeOperand.Evaluates, SizeOperand.Misread]
  cases helement : constant.element with
  | none =>
      exact iff_of_true (fun slots' rest' v _ heval => absurd heval.2.1 Bool.false_ne_true)
        (fun hmisread => absurd hmisread.1 Bool.false_ne_true)
  | some element =>
      have hvisit : visitLiteral constant = Visit.push element := by
        unfold visitLiteral
        rw [helement]
      rw [hvisit] at hrun
      obtain ⟨value, v, w, heval, hbytes, hscript, hpushes, hv, hw, hdiffers⟩ :=
        @pushesText_literal env _ _ helement fits
      have hone : ∀ v', (∃ value', evalLiteral constant = .ok value' ∧
          value'.toScriptBytes = .ok v') → v' = v := by
        rintro v' ⟨value', heval', hbytes'⟩
        obtain rfl := Except.ok.inj (heval.symm.trans heval')
        exact Except.ok.inj (hbytes'.symm.trans hbytes)
      constructor
      · rintro hall ⟨-, hmisread⟩
        obtain ⟨sizeName, hreaches⟩ := reaches_text h hscript hpushes hrun
        obtain ⟨name, size, kept, -, hsize, hmeasured⟩ :=
          hall slots slots v h ⟨rfl, rfl, value, heval, hbytes⟩
        have hvalues := takes_unique hmeasured.takes hreaches.takes
        have hsame : size = serializeScriptNum w.length :=
          Option.some.inj (congrArg (fun t => t.1.head?) hvalues)
        rw [Measures.size hsize] at hsame
        have hlengths := serializeScriptNum_injective (by omega) (by omega) (by omega) (by omega) hsame
        exact hdiffers.1 (by omega) hmisread
      · rintro hread slots' rest' v' hslots ⟨rfl, -, hvalue⟩
        obtain rfl := hone v' hvalue
        obtain ⟨sizeName, hreaches⟩ := reaches_text hslots hscript hpushes hrun
        rw [hdiffers.2 fun hmisread => hread ⟨rfl, hmisread⟩] at hreaches
        exact ⟨sizeName, _, [_], Nat.le_refl 1, fun value => callFunction_size env.toEnv, hreaches⟩

theorem expression_measured (visit : Visit) (hrun : processSize visit s = .ok (code, s')) :
    MeasuredAlways env s (.expression visit) code s' := by
  rintro slots' rest' v - ⟨code₁, s₁, name, hvisit, hscript, hplaceholder, hreaches⟩
  obtain ⟨code₂, s₂, code₃, hvisit', hmeasure, rfl⟩ := Visit.seq_ok hrun
  obtain ⟨rfl, rfl⟩ := Prod.mk.inj (Except.ok.inj (hvisit.symm.trans hvisit'))
  obtain ⟨code₄, s₃, code₅, htake, hsize, rfl⟩ :=
    Visit.seq_ok (takeOperand_of_top hreaches.depicts hmeasure)
  rw [takeOperand, if_neg (by rw [hscript]; exact Bool.false_ne_true), if_pos hplaceholder] at htake
  obtain ⟨rfl, rfl⟩ := Prod.mk.inj (Except.ok.inj htake)
  obtain ⟨sizeName, hsized⟩ := @reaches_pushSize env _ _ _ _ _ _ hreaches.depicts hsize
  exact ⟨sizeName, _, [(name, v)], Nat.le_refl 1, fun value => callFunction_size env.toEnv,
    hreaches.trans hsized⟩

/-- **An operand of `Size` is measured if and only if it is not misread.**  For every picture of two stacks
and every operand that the lowering accepts: for all named values that the picture shows, and every value
that the operand has there, the code leaves on top the size that the interpreter returns, keeps all other
slots, and the picture shows this, exactly where the operand is not a name whose slot lies below the top or
on the alt stack, nor text that is no script, nor a literal that the interpreter measures differently. -/
theorem size_measures_iff (env : ScriptEnv) {s s' : VisitorState} {code : List String}
    (operand : SizeOperand) (hmatch : ∃ slots, Depicts s.table slots)
    (hrun : processSize operand.visit s = .ok (code, s')) :
    (∀ slots rest v, Depicts s.table slots → operand.Evaluates env s slots rest v →
      Measures env s slots rest v code s') ↔ ¬ operand.Misread s := by
  obtain ⟨slots, hslots⟩ := hmatch
  cases operand with
  | identifier name plain => exact identifier_measured_iff plain hslots hrun
  | slot element plain => exact slot_measured_iff plain hslots hrun
  | literal constant fits => exact literal_measured_iff fits hslots hrun
  | expression visit => exact iff_of_true (expression_measured visit hrun) id

/-- The variable `x` on top of the stack. -/
def variableOnTop : VisitorState where
  table := ⟨[⟨"x", "", ""⟩, ⟨"y", "", ""⟩], [], [], [], [], [], [], 0, 0⟩

theorem isSlotName_x : IsSlotName "x" := by
  unfold IsSlotName
  decide

/-- `Size(x)` of the variable on top. -/
theorem size_measures_iff_top :
    ∃ code s', processSize (visitIdentifier "x") variableOnTop = .ok (code, s') ∧
      Measures ScriptEnv.plain variableOnTop ([("x", [0x07]), ("y", [])], [])
        ([("x", [0x07]), ("y", [])], []) [0x07] code s' := by
  have hdepicts : Depicts variableOnTop.table ([("x", [0x07]), ("y", [])], []) :=
    ⟨rfl, by decide, by decide⟩
  have hplace : variableOnTop.place "x" = .main 0 := by rfl
  have hrun : ∃ result, processSize (visitIdentifier "x") variableOnTop = .ok result := ⟨_, by rfl⟩
  obtain ⟨⟨code, s'⟩, hrun⟩ := hrun
  refine ⟨code, s', hrun, (size_measures_iff ScriptEnv.plain (.identifier "x" isSlotName_x)
    ⟨_, hdepicts⟩ hrun).2 ?_ _ _ _ hdepicts ⟨rfl, ?_⟩⟩
  · simp only [SizeOperand.Misread, hplace]
    exact fun h => h rfl
  · rw [hplace]
    exact ⟨"x", rfl⟩

/-- The variable `x` below another one. -/
def variableBelow : VisitorState where
  table := ⟨[⟨"y", "", ""⟩, ⟨"x", "", ""⟩], [], [], [], [], [], [], 0, 0⟩

/-- **A variable below the top**: `Size(x)` is the size of the slot above it. -/
theorem size_of_the_top :
    ∃ s', processSize (visitIdentifier "x") variableBelow = .ok (["82"], s') ∧
      variableBelow.place "x" = .main 1 ∧
      outcome ScriptEnv.plain ["82"] [[], [0x01, 0x02]] [] = some ([[], [], [0x01, 0x02]], []) ∧
      ¬ Measures ScriptEnv.plain variableBelow ([("y", []), ("x", [0x01, 0x02])], [])
        ([("y", []), ("x", [0x01, 0x02])], []) [0x01, 0x02] ["82"] s' := by
  have hout : outcome ScriptEnv.plain ["82"] [[], [0x01, 0x02]] [] =
      some ([[], [], [0x01, 0x02]], []) := by decide +kernel
  refine ⟨_, by rfl, by rfl, hout, ?_⟩
  rintro ⟨name, size, kept, -, hsize, hreaches⟩
  have hsame := hreaches.takes.outcome
  rw [show NamedStacks.values ([("y", []), ("x", [0x01, 0x02])], []) =
    ([[], [0x01, 0x02]], []) from rfl, hout] at hsame
  have hempty : [] = size := Option.some.inj (congrArg (fun t => t.bind fun t => t.1.head?) hsame)
  rw [Measures.size hsize] at hempty
  exact absurd hempty (by decide)

end AtomicProof
