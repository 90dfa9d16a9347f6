/-
The bytes of structures.

The interpreter keeps the fields of a structure in a `std::map`, and `RuntimeValue::toScriptBytes` writes
them in its order, by name.  `unpackCompoundValue` and `unpackStructValue` in
`src/src/interpreter/ast_interpreter.cpp` read them in the declared order, as the compiled script does.
A value comes back only where its fields are of the declared sizes and the two orders give the same
bytes, which they do for all values of a type whose fields with any bytes are declared in the order of
their names.

A value of a type is given by the values of its names.  It is written, and what the reader makes of the
bytes is compared with it by `operator==`: a number or a truth value comes back as its bytes, which is
equal to it, while a text or an array is never equal to bytes.

Main definitions:

* `unpackCompoundValue`, `unpackStructValue` — the readers;
* `CompoundSerialises`, `StructSerialises` — a value is written in the declared order and comes back;
* `CompoundFits`, `StructFits` — the fields of a value have the declared sizes;
* `CompoundExact`, `StructExact` — when a value comes back;
* `CompoundOrdered`, `StructOrdered` — the fields have fixed sizes and are declared by name.

Main results:

* `compoundSerialises_iff`, `structSerialises_iff` — **when a value comes back**;
* `serialises_iff` — **when the values of a type come back, and that those of an ordered type do**;
* `hex_pair_swapped` — two bytes `b` and `a` are swapped.
-/

import AtomicProof.OrderedRecord
import AtomicProof.RuntimeValue
import AtomicProof.SymbolTable
import Mathlib.Data.List.Forall2
import Mathlib.Data.String.Basic

set_option autoImplicit false

namespace AtomicProof

/-! ### The readers -/

def checkedSlice (bytes : Bytes) (offset size : ℕ) (fieldName : String) :
    Except RuntimeError Bytes :=
  if bytes.length < offset + size then
    .error ⟨.typeMismatch, "not enough bytes to unpack field '" ++ fieldName ++ "'"⟩
  else
    .ok ((bytes.drop offset).take size)

/-- The loop of `ASTInterpreter::unpackCompoundValue`. -/
def unpackCompoundFields (bytes : Bytes) : List CompoundFieldInfo → ℕ →
    List (String × RuntimeValue) → Except RuntimeError (List (String × RuntimeValue))
  | [], _, result => .ok result
  | field :: fields, offset, result => do
      if field.byteSize = 0 then
        throw ⟨.typeMismatch, "compound field '" ++ field.name ++ "' has no fixed byte size"⟩
      let fieldBytes ← checkedSlice bytes offset field.byteSize field.name
      unpackCompoundFields bytes fields (offset + field.byteSize)
        (insertEntry field.name (.fromBytes fieldBytes field.type) result)

def unpackCompoundValue (value : RuntimeValue) (fields : List CompoundFieldInfo) :
    Except RuntimeError RuntimeValue := do
  let bytes ← value.toScriptBytes
  let result ← unpackCompoundFields bytes fields 0 []
  return .struct result "__compound__"

/-- `fixedByteSizeForType`.  The text of the last error is that of `std::stoull`. -/
def fixedByteSizeForType (typeName : String) : Except RuntimeError (Option ℕ) :=
  let lower := typeName.toList.map toLower
  if lower = "uint64".toList then .ok (some 8)
  else if "hex".toList <+: lower ∧ 3 < lower.length then
    let digits := lower.drop 3
    if digits.all Char.isDigit then
      let size := digits.foldl (fun size c => 10 * size + (c.toNat - '0'.toNat)) 0
      if size < 2 ^ 64 then .ok (some size) else .error ⟨.generic, "stoull"⟩
    else .ok none
  else .ok none

/-- The body of the loop of `ASTInterpreter::unpackStructValue`: the value of a field and the number of
its bytes.  `findStruct` is that of the context. -/
def unpackStructField (findStruct : String → Option StructDefNode) (bytes : Bytes) (offset : ℕ)
    (fieldName : String) (fieldType : StructFieldType) : Except RuntimeError (RuntimeValue × ℕ) := do
  if fieldType.isCompoundType then
    let size := fieldType.getTotalByteSize
    let fieldBytes ← checkedSlice bytes offset size fieldName
    let value ← unpackCompoundValue (.fromBytes fieldBytes "__compound__") fieldType.compoundFields
    return (value, size)
  else if fieldType.isArray then
    let size := fieldType.getTotalByteSize
    if size = 0 then
      throw ⟨.typeMismatch,
        "struct field '" ++ fieldName ++ "' has unsupported variable-width array type"⟩
    let fieldBytes ← checkedSlice bytes offset size fieldName
    return (.fromBytes fieldBytes fieldType.getTypeString, size)
  else if (findStruct fieldType.baseType).isSome then
    throw ⟨.typeMismatch, "nested struct field '" ++ fieldName ++
      "' cannot be unpacked from bytes without fixed-size fields"⟩
  else
    match ← fixedByteSizeForType fieldType.baseType with
    | none =>
        throw ⟨.typeMismatch, "struct field '" ++ fieldName ++
          "' has unsupported variable-width type '" ++ fieldType.baseType ++ "'"⟩
    | some width =>
        let fieldBytes ← checkedSlice bytes offset width fieldName
        return (.fromBytes fieldBytes fieldType.baseType, width)

/-- The loop of `ASTInterpreter::unpackStructValue`. -/
def unpackStructFields (findStruct : String → Option StructDefNode) (bytes : Bytes) :
    List (String × StructFieldType) → ℕ → List (String × RuntimeValue) →
      Except RuntimeError (List (String × RuntimeValue))
  | [], _, result => .ok result
  | (fieldName, fieldType) :: fields, offset, result => do
      let (value, size) ← unpackStructField findStruct bytes offset fieldName fieldType
      unpackStructFields findStruct bytes fields (offset + size) (insertEntry fieldName value result)

def unpackStructValue (findStruct : String → Option StructDefNode) (value : RuntimeValue)
    (structDef : StructDefNode) : Except RuntimeError RuntimeValue := do
  let bytes ← value.toScriptBytes
  let result ← unpackStructFields findStruct bytes structDef.fields 0 []
  return .struct result structDef.name

/-- The number of bytes that the layout has for a field, if it is fixed. -/
def StructFieldType.fixedSize (findStruct : String → Option StructDefNode)
    (fieldType : StructFieldType) : Option ℕ :=
  if fieldType.isCompoundType then
    if ∀ field ∈ fieldType.compoundFields, field.byteSize ≠ 0 then some fieldType.getTotalByteSize
    else none
  else if fieldType.isArray then
    if fieldType.getTotalByteSize = 0 then none else some fieldType.getTotalByteSize
  else if (findStruct fieldType.baseType).isSome then none
  else
    match fixedByteSizeForType fieldType.baseType with
    | .ok size => size
    | .error _ => none

/-! ### Values of a type -/

/-- The values of names, in the declared order. -/
def recordEntries (names : List String) (value : String → RuntimeValue) :
    List (String × RuntimeValue) :=
  names.map fun name => (name, value name)

def recordValue (names : List String) (value : String → RuntimeValue) (declaredType : String) :
    RuntimeValue :=
  .struct (collect (recordEntries names value)) declaredType

/-- **A structure is written as the bytes of its fields in the declared order, and what is read from
them is equal to it.** -/
def Serialises (read : RuntimeValue → Except RuntimeError RuntimeValue) (names : List String)
    (value : String → RuntimeValue) (declaredType : String) : Prop :=
  ∃ bytes, (recordValue names value declaredType).toScriptBytes = .ok bytes ∧
    RuntimeValue.toScriptBytesFields (recordEntries names value) = .ok bytes ∧
    ∃ back, read (.fromBytes bytes declaredType) = .ok back ∧
      (recordValue names value declaredType).eq back = true

def CompoundSerialises (fields : List CompoundFieldInfo) (value : String → RuntimeValue) : Prop :=
  Serialises (unpackCompoundValue · fields) (fields.map (·.name)) value "__compound__"

def StructSerialises (findStruct : String → Option StructDefNode) (structDef : StructDefNode)
    (value : String → RuntimeValue) : Prop :=
  Serialises (unpackStructValue findStruct · structDef) (structDef.fields.map (·.1)) value
    structDef.name

/-! ### Values that come back -/

def RuntimeValue.scriptBytes (value : RuntimeValue) : Bytes := value.toScriptBytes.toOption.getD []

/-- The bytes of names, in the declared order. -/
def fieldBytes (names : List String) (value : String → RuntimeValue) : List (String × Bytes) :=
  names.map fun name => (name, (value name).scriptBytes)

/-- The order of the names and the declared order give the same bytes. -/
def Listed (names : List String) (value : String → RuntimeValue) : Prop :=
  contents (collect (fieldBytes names value)) = contents (fieldBytes names value)

/-- Every field is a number, a truth value, bytes or nothing, with the declared number of bytes. -/
def CompoundFits (fields : List CompoundFieldInfo) (value : String → RuntimeValue) : Prop :=
  ∀ field ∈ fields, (value field.name).isScalar = true ∧
    (value field.name).scriptBytes.length = field.byteSize

/-- A value of the type of a field, whatever the number of its bytes. -/
inductive FieldFits (fieldType : StructFieldType) : RuntimeValue → Prop
  | plain {value : RuntimeValue} (hplain : fieldType.isCompoundType = false)
      (hscalar : value.isScalar = true) : FieldFits fieldType value
  | compound {inner : String → RuntimeValue} {declaredType : String}
      (hcompound : fieldType.isCompoundType = true)
      (hinner : CompoundFits fieldType.compoundFields inner) :
      FieldFits fieldType
        (recordValue (fieldType.compoundFields.map (·.name)) inner declaredType)

/-- Every field has its number of bytes, and every name a value of the type that it is declared with
last. -/
structure StructFits (findStruct : String → Option StructDefNode) (structDef : StructDefNode)
    (value : String → RuntimeValue) : Prop where
  sizes : ∀ field ∈ structDef.fields, ∀ size, field.2.fixedSize findStruct = some size →
    (value field.1).scriptBytes.length = size
  values : ∀ field ∈ collect structDef.fields, FieldFits field.2 (value field.1)

structure CompoundExact (fields : List CompoundFieldInfo) (value : String → RuntimeValue) : Prop where
  sized : ∀ field ∈ fields, field.byteSize ≠ 0
  fits : CompoundFits fields value
  listed : Listed (fields.map (·.name)) value

structure StructExact (findStruct : String → Option StructDefNode) (structDef : StructDefNode)
    (value : String → RuntimeValue) : Prop where
  sized : ∀ field ∈ structDef.fields, (field.2.fixedSize findStruct).isSome = true
  fits : StructFits findStruct structDef value
  listed : Listed (structDef.fields.map (·.1)) value
  nested : ∀ field ∈ collect structDef.fields, ∀ inner declaredType,
    field.2.isCompoundType = true →
      value field.1 = recordValue (field.2.compoundFields.map (·.name)) inner declaredType →
        Listed (field.2.compoundFields.map (·.name)) inner

/-! ### Ordered types -/

/-- The fields of a compound type have fixed sizes and are declared by name. -/
structure CompoundOrdered (fields : List CompoundFieldInfo) : Prop where
  sized : ∀ field ∈ fields, field.byteSize ≠ 0
  ordered : KeyOrdered (fields.map fun field => (field.name, field.byteSize))

/-- The fields of a structure type have fixed sizes, and the ones with any bytes are declared by name,
those of compound types within them too. -/
structure StructOrdered (findStruct : String → Option StructDefNode) (structDef : StructDefNode) :
    Prop where
  sized : ∀ field ∈ structDef.fields, (field.2.fixedSize findStruct).isSome = true
  ordered : KeyOrdered (structDef.fields.map fun field =>
    (field.1, (field.2.fixedSize findStruct).getD 0))
  nested : ∀ field ∈ collect structDef.fields, field.2.isCompoundType = true →
    CompoundOrdered field.2.compoundFields

/-! ### Records -/

theorem toScriptBytes_fromBytes (data : Bytes) (declaredType : String) :
    (RuntimeValue.fromBytes data declaredType).toScriptBytes = .ok data := by
  rw [RuntimeValue.fromBytes, RuntimeValue.toScriptBytes]

theorem RuntimeValue.toScriptBytes_of_scalar {value : RuntimeValue} (h : value.isScalar = true) :
    value.toScriptBytes = .ok value.scriptBytes := by
  unfold RuntimeValue.scriptBytes
  cases value <;> first | rfl | cases h

variable {value : String → RuntimeValue} {bytes : Bytes} {declaredType : String}
  {fields : List CompoundFieldInfo}

theorem RuntimeValue.scriptBytes_of_ok {value : RuntimeValue}
    (h : value.toScriptBytes = .ok bytes) : value.scriptBytes = bytes := by
  rw [RuntimeValue.scriptBytes, h]
  rfl

/-- The bytes of a row of values. -/
theorem toScriptBytesFields_eq_ok {fields : List (String × RuntimeValue)} :
    RuntimeValue.toScriptBytesFields fields = .ok bytes ↔
      (∀ field ∈ fields, field.2.toScriptBytes = .ok field.2.scriptBytes) ∧
        bytes = contents (fields.map fun field => (field.1, field.2.scriptBytes)) := by
  induction fields generalizing bytes with
  | nil =>
      rw [RuntimeValue.toScriptBytesFields]
      constructor
      · rintro h
        exact ⟨fun field hfield => absurd hfield List.not_mem_nil, (Except.ok.inj h).symm⟩
      · rintro ⟨-, rfl⟩
        rfl
  | cons field fields ih =>
      rw [RuntimeValue.toScriptBytesFields, List.map_cons, List.forall_mem_cons]
      cases hfield : field.2.toScriptBytes with
      | error e =>
          constructor
          · intro h
            cases h
          · rintro ⟨⟨h, -⟩, -⟩
            cases h
      | ok first =>
          have hfirst := RuntimeValue.scriptBytes_of_ok hfield
          cases hrest : RuntimeValue.toScriptBytesFields fields with
          | error e =>
              constructor
              · intro h
                cases h
              · rintro ⟨⟨-, h⟩, -⟩
                rw [ih.2 ⟨h, rfl⟩] at hrest
                cases hrest
          | ok rest =>
              obtain ⟨hall, rfl⟩ := ih.1 hrest
              constructor
              · intro h
                refine ⟨⟨by rw [hfirst], hall⟩, ?_⟩
                rw [← Except.ok.inj h, hfirst]
                rfl
              · rintro ⟨-, rfl⟩
                rw [hfirst]
                rfl

theorem toScriptBytes_recordValue {names : List String}
    (h : ∀ name ∈ names, (value name).toScriptBytes = .ok (value name).scriptBytes)
    (declaredType : String) :
    (recordValue names value declaredType).toScriptBytes =
      .ok (contents (collect (fieldBytes names value))) := by
  rw [recordValue, RuntimeValue.toScriptBytes]
  refine toScriptBytesFields_eq_ok.2 ⟨?_, ?_⟩
  · intro field hfield
    obtain ⟨name, hname, rfl⟩ := List.mem_map.1 (mem_of_mem_collect hfield)
    exact h name hname
  · rw [map_collect fun (_ : String) (value : RuntimeValue) => value.scriptBytes, recordEntries,
      List.map_map]
    rfl

/-- What it takes to come back, on bytes. -/
theorem serialises_iff_bytes {read : RuntimeValue → Except RuntimeError RuntimeValue}
    {names : List String} :
    Serialises read names value declaredType ↔
      (∀ name ∈ names, (value name).toScriptBytes = .ok (value name).scriptBytes) ∧
        Listed names value ∧
        ∃ back, read (.fromBytes (contents (fieldBytes names value)) declaredType) = .ok back ∧
          (recordValue names value declaredType).eq back = true := by
  have hdeclared : (recordEntries names value).map (fun field => (field.1, field.2.scriptBytes)) =
      fieldBytes names value := by
    rw [recordEntries, List.map_map]
    rfl
  constructor
  · rintro ⟨bytes, hwritten, hbytes, back, hback, heq⟩
    obtain ⟨hall, rfl⟩ := toScriptBytesFields_eq_ok.1 hbytes
    have hnames : ∀ name ∈ names, (value name).toScriptBytes = .ok (value name).scriptBytes :=
      fun name hname => hall (name, value name) (List.mem_map_of_mem hname)
    rw [hdeclared] at hwritten hback
    rw [toScriptBytes_recordValue hnames] at hwritten
    exact ⟨hnames, Except.ok.inj hwritten, back, hback, heq⟩
  · rintro ⟨hnames, hlisted, back, hback, heq⟩
    refine ⟨_, ?_, ?_, back, hback, heq⟩
    · rw [toScriptBytes_recordValue hnames, hlisted]
    · refine toScriptBytesFields_eq_ok.2 ⟨?_, by rw [hdeclared]⟩
      intro field hfield
      obtain ⟨name, hname, rfl⟩ := List.mem_map.1 hfield
      exact hnames name hname

theorem eqFields_iff {as bs : List (String × RuntimeValue)} :
    RuntimeValue.eqFields as bs = true ↔
      List.Forall₂ (fun a b => a.1 = b.1 ∧ a.2.eq b.2 = true) as bs := by
  induction as generalizing bs with
  | nil =>
      cases bs with
      | nil => simp [RuntimeValue.eqFields]
      | cons b bs => simp [RuntimeValue.eqFields]
  | cons a as ih =>
      cases bs with
      | nil => simp [RuntimeValue.eqFields]
      | cons b bs =>
          rw [RuntimeValue.eqFields, List.forall₂_cons, ← ih]
          simp

/-- What is equal to bytes. -/
theorem eq_fromBytes_iff {value : RuntimeValue} {data : Bytes} :
    value.eq (.fromBytes data declaredType) = true ↔
      value.isScalar = true ∧ value.scriptBytes = data := by
  by_cases hscalar : value.isScalar = true
  · rw [RuntimeValue.eq_of_scalar hscalar rfl, toScriptBytes_fromBytes,
      RuntimeValue.toScriptBytes_of_scalar hscalar]
    simp [Except.toOption, hscalar]
  · refine iff_of_false ?_ fun h => hscalar h.1
    rw [RuntimeValue.fromBytes]
    cases value <;>
      first
        | exact absurd rfl hscalar
        | simp [RuntimeValue.eq, RuntimeValue.isScalar, RuntimeValue.type]

/-- What is equal to a structure. -/
theorem eq_struct_iff {value : RuntimeValue} {fields : List (String × RuntimeValue)}
    :
    value.eq (.struct fields declaredType) = true ↔
      ∃ entries own, value = .struct entries own ∧
        List.Forall₂ (fun a b => a.1 = b.1 ∧ a.2.eq b.2 = true) entries fields := by
  constructor
  · intro h
    cases value with
    | struct entries own =>
        rw [RuntimeValue.eq] at h
        exact ⟨entries, own, rfl, eqFields_iff.1 h⟩
    | _ => simp [RuntimeValue.eq, RuntimeValue.isScalar, RuntimeValue.type] at h
  · rintro ⟨entries, own, rfl, h⟩
    rw [RuntimeValue.eq]
    exact eqFields_iff.2 h

/-! ### Reading -/

theorem checkedSlice_eq_ok {part : Bytes} {offset size : ℕ} {fieldName : String} :
    checkedSlice bytes offset size fieldName = .ok part ↔
      offset + size ≤ bytes.length ∧ part = (bytes.drop offset).take size := by
  unfold checkedSlice
  split_ifs with h
  · refine iff_of_false (fun h => nomatch h) fun hle => ?_
    omega
  · rw [Except.ok.injEq]
    exact ⟨fun heq => ⟨by omega, heq.symm⟩, fun heq => heq.2.symm⟩

/-- A field of a compound type with its bytes. -/
def compoundEntry (part : CompoundFieldInfo × Bytes) : String × RuntimeValue :=
  (part.1.name, .fromBytes part.2 part.1.type)

/-- The fields of a compound type over bytes. -/
def compoundLayout (fields : List CompoundFieldInfo) (bytes : Bytes) : List (String × RuntimeValue) :=
  collect ((cut (·.byteSize) fields bytes).map compoundEntry)

theorem unpackCompoundFields_eq_ok {offset : ℕ}
    (hoffset : offset ≤ bytes.length) {result out : List (String × RuntimeValue)} :
    unpackCompoundFields bytes fields offset result = .ok out ↔
      (∀ field ∈ fields, field.byteSize ≠ 0) ∧
        offset + (fields.map (·.byteSize)).sum ≤ bytes.length ∧
        out = ((cut (·.byteSize) fields (bytes.drop offset)).map compoundEntry).foldl
          (fun container entry => insertEntry entry.1 entry.2 container) result := by
  induction fields generalizing offset result with
  | nil =>
      rw [unpackCompoundFields, Except.ok.injEq]
      constructor
      · rintro rfl
        exact ⟨fun field hfield => absurd hfield List.not_mem_nil, hoffset, rfl⟩
      · exact fun h => h.2.2.symm
  | cons field fields ih =>
      rw [unpackCompoundFields]
      by_cases hzero : field.byteSize = 0
      · rw [if_pos hzero]
        exact iff_of_false (fun h => nomatch h) fun h => h.1 field List.mem_cons_self hzero
      · rw [if_neg hzero, List.forall_mem_cons, List.map_cons, List.sum_cons, cut, List.map_cons,
          List.foldl_cons, List.drop_drop]
        constructor
        · intro h
          obtain ⟨part, hpart, h⟩ := bind_eq_ok_iff.1 h
          obtain ⟨hle, rfl⟩ := checkedSlice_eq_ok.1 hpart
          obtain ⟨hsized, htotal, rfl⟩ := (ih hle).1 h
          exact ⟨⟨hzero, hsized⟩, by omega, rfl⟩
        · rintro ⟨⟨-, hsized⟩, htotal, rfl⟩
          have hle : offset + field.byteSize ≤ bytes.length := by omega
          exact bind_eq_ok_iff.2 ⟨_, checkedSlice_eq_ok.2 ⟨hle, rfl⟩,
            (ih hle).2 ⟨hsized, by omega, rfl⟩⟩

/-- **What is read as a compound value.** -/
theorem unpackCompoundValue_eq_ok {out : RuntimeValue} :
    unpackCompoundValue (.fromBytes bytes declaredType) fields = .ok out ↔
      (∀ field ∈ fields, field.byteSize ≠ 0) ∧ (fields.map (·.byteSize)).sum ≤ bytes.length ∧
        out = .struct (compoundLayout fields bytes) "__compound__" := by
  rw [unpackCompoundValue, toScriptBytes_fromBytes]
  constructor
  · intro h
    obtain ⟨_, hbytes, h⟩ := bind_eq_ok_iff.1 h
    obtain rfl := Except.ok.inj hbytes
    obtain ⟨result, hresult, h⟩ := bind_eq_ok_iff.1 h
    obtain ⟨hsized, htotal, rfl⟩ := (unpackCompoundFields_eq_ok (Nat.zero_le _)).1 hresult
    exact ⟨hsized, by omega, (Except.ok.inj h).symm⟩
  · rintro ⟨hsized, htotal, rfl⟩
    exact bind_eq_ok_iff.2 ⟨bytes, rfl, bind_eq_ok_iff.2 ⟨_,
      (unpackCompoundFields_eq_ok (Nat.zero_le _)).2 ⟨hsized, by omega, rfl⟩, rfl⟩⟩

/-! ### Compound values -/

section Compound

variable {fields : List CompoundFieldInfo} {value : String → RuntimeValue} {bytes : Bytes}

/-- The names of a compound type over bytes. -/
def compoundParts (fields : List CompoundFieldInfo) (bytes : Bytes) : List (String × Bytes) :=
  (cut (·.byteSize) fields bytes).map fun part => (part.1.name, part.2)

theorem map_fst_compoundParts (fields : List CompoundFieldInfo) (bytes : Bytes) :
    (compoundParts fields bytes).map (·.1) = fields.map (·.name) := by
  rw [compoundParts, List.map_map]
  conv_rhs => rw [← map_fst_cut (·.byteSize) fields bytes, List.map_map]
  rfl

theorem contents_compoundParts (fields : List CompoundFieldInfo) (bytes : Bytes) :
    contents (compoundParts fields bytes) = bytes.take (fields.map (·.byteSize)).sum := by
  rw [contents, compoundParts, List.flatMap_map]
  exact flatMap_cut _ _ _

theorem widths_compoundParts (h : (fields.map (·.byteSize)).sum ≤ bytes.length) :
    widths (compoundParts fields bytes) = fields.map fun field => (field.name, field.byteSize) := by
  have hlength := length_of_mem_cut h
  rw [widths, compoundParts, List.map_map]
  conv_rhs => rw [← map_fst_cut (·.byteSize) fields bytes, List.map_map]
  refine List.map_congr_left fun part hpart => ?_
  show (part.1.name, part.2.length) = (part.1.name, part.1.byteSize)
  rw [hlength part hpart]

def entryBytes (entries : List (String × RuntimeValue)) : List (String × Bytes) :=
  entries.map fun entry => (entry.1, entry.2.scriptBytes)

/-- Rows that are equal to rows of bytes. -/
theorem forall₂_eq_fromBytes_iff {as bs : List (String × RuntimeValue)}
    (h : ∀ b ∈ bs, ∃ data declaredType, b.2 = .fromBytes data declaredType) :
    List.Forall₂ (fun a b => a.1 = b.1 ∧ a.2.eq b.2 = true) as bs ↔
      (∀ a ∈ as, a.2.isScalar = true) ∧ entryBytes as = entryBytes bs := by
  induction as generalizing bs with
  | nil =>
      rw [List.forall₂_nil_left_iff, entryBytes, entryBytes, List.map_nil]
      constructor
      · rintro rfl
        exact ⟨fun a ha => absurd ha List.not_mem_nil, rfl⟩
      · exact fun hbs => List.map_eq_nil_iff.1 hbs.2.symm
  | cons a as ih =>
      cases bs with
      | nil => exact iff_of_false (fun h => nomatch h) fun h => nomatch h.2
      | cons b bs =>
          obtain ⟨⟨data, declaredType, hb⟩, hbs⟩ := List.forall_mem_cons.1 h
          rw [List.forall₂_cons, ih hbs, List.forall_mem_cons, hb, eq_fromBytes_iff]
          simp only [entryBytes, List.map_cons, List.cons.injEq, Prod.mk.injEq, hb,
            RuntimeValue.scriptBytes_of_ok (toScriptBytes_fromBytes _ _)]
          tauto

theorem entryBytes_collect_recordEntries (names : List String) (value : String → RuntimeValue) :
    entryBytes (collect (recordEntries names value)) = collect (fieldBytes names value) := by
  rw [entryBytes, map_collect fun (_ : String) (value : RuntimeValue) => value.scriptBytes,
    recordEntries, List.map_map]
  rfl

theorem entryBytes_compoundLayout (fields : List CompoundFieldInfo) (bytes : Bytes) :
    entryBytes (compoundLayout fields bytes) = collect (compoundParts fields bytes) := by
  rw [entryBytes, compoundLayout,
    map_collect fun (_ : String) (value : RuntimeValue) => value.scriptBytes, List.map_map]
  rfl

/-- **What is equal to what is read as a compound value**: scalars with the same bytes. -/
theorem eq_compoundLayout_iff :
    List.Forall₂ (fun a b => a.1 = b.1 ∧ a.2.eq b.2 = true)
        (collect (recordEntries (fields.map (·.name)) value)) (compoundLayout fields bytes) ↔
      (∀ field ∈ fields, (value field.name).isScalar = true) ∧
        collect (fieldBytes (fields.map (·.name)) value) = collect (compoundParts fields bytes) := by
  have hplain : ∀ entry ∈ compoundLayout fields bytes,
      ∃ data declaredType, entry.2 = .fromBytes data declaredType := by
    intro entry hentry
    obtain ⟨part, -, rfl⟩ := List.mem_map.1 (mem_of_mem_collect hentry)
    exact ⟨_, _, rfl⟩
  rw [forall₂_eq_fromBytes_iff hplain, entryBytes_collect_recordEntries, entryBytes_compoundLayout]
  refine and_congr_left fun _ => ⟨fun h field hfield => ?_, fun h entry hentry => ?_⟩
  · exact h _ (mem_collect_map value (List.mem_map_of_mem hfield))
  · obtain ⟨name, hname, rfl⟩ := List.mem_map.1 (mem_of_mem_collect hentry)
    obtain ⟨field, hfield, rfl⟩ := List.mem_map.1 hname
    exact h field hfield

/-- Bytes that are long enough, and no longer than what was written, are cut into the bytes that were
written: no name is declared again. -/
theorem fieldBytes_of_layout (hsized : ∀ field ∈ fields, field.byteSize ≠ 0)
    (hle : (fields.map (·.byteSize)).sum ≤ bytes.length)
    (hcollect : collect (fieldBytes (fields.map (·.name)) value) =
      collect (compoundParts fields bytes))
    (hlength : (fields.map (·.byteSize)).sum ≤
      (contents (collect (fieldBytes (fields.map (·.name)) value))).length) :
    fieldBytes (fields.map (·.name)) value = compoundParts fields bytes := by
  have hwidths := widths_compoundParts hle
  have hsum : totalWidth (widths (compoundParts fields bytes)) = (fields.map (·.byteSize)).sum := by
    rw [hwidths, totalWidth, List.map_map]
    rfl
  have htotal : totalWidth (collect (widths (compoundParts fields bytes))) =
      totalWidth (widths (compoundParts fields bytes)) := by
    refine le_antisymm (totalWidth_collect_le _) ?_
    rw [hsum, ← widths_collect, ← hcollect, ← length_contents]
    exact hlength
  -- every field has bytes, so no name is declared again
  have hnodup : ((compoundParts fields bytes).map (·.1)).Nodup := by
    have hpairs := pairwise_of_totalWidth htotal
    rw [hwidths] at hpairs
    rw [map_fst_compoundParts]
    refine List.pairwise_map.2 ((List.pairwise_map.1 hpairs).imp_of_mem ?_)
    intro field later hfield _ hne
    exact (hne (hsized field hfield)).symm
  have hkeys : (fieldBytes (fields.map (·.name)) value).map (·.1) =
      (compoundParts fields bytes).map (·.1) := by
    rw [map_fst_compoundParts, fieldBytes, List.map_map]
    exact List.map_id _
  refine eq_of_perm_of_keys ?_ hkeys (hkeys ▸ hnodup)
  refine .trans (collect_perm_of_nodup (hkeys ▸ hnodup)).symm ?_
  rw [hcollect]
  exact collect_perm_of_nodup hnodup

/-- The bytes of a value of the declared sizes are cut into those of its fields. -/
theorem compoundParts_of_fits (h : CompoundFits fields value) :
    compoundParts fields (contents (fieldBytes (fields.map (·.name)) value)) =
      fieldBytes (fields.map (·.name)) value := by
  have hcut : cut (·.byteSize) fields
      (fields.flatMap (fun field => (value field.name).scriptBytes) ++ []) =
        fields.map fun field => (field, (value field.name).scriptBytes) :=
    cut_flatMap (fun field hfield => (h field hfield).2) []
  have hcontents : contents (fieldBytes (fields.map (·.name)) value) =
      fields.flatMap (fun field => (value field.name).scriptBytes) ++ [] := by
    rw [contents, fieldBytes, List.map_map, List.flatMap_map, List.append_nil]
    rfl
  rw [compoundParts, hcontents, hcut, List.map_map, fieldBytes, List.map_map]
  rfl

theorem length_contents_of_fits (h : CompoundFits fields value) :
    (contents (fieldBytes (fields.map (·.name)) value)).length =
      (fields.map (·.byteSize)).sum := by
  rw [length_contents, totalWidth, widths, fieldBytes, List.map_map, List.map_map, List.map_map]
  exact congrArg List.sum (List.map_congr_left fun field hfield => (h field hfield).2)

theorem fits_of_layout (hscalar : ∀ field ∈ fields, (value field.name).isScalar = true)
    (hle : (fields.map (·.byteSize)).sum ≤ bytes.length)
    (hparts : fieldBytes (fields.map (·.name)) value = compoundParts fields bytes) :
    CompoundFits fields value := by
  intro field hfield
  refine ⟨hscalar field hfield, ?_⟩
  have hwidths := widths_compoundParts hle
  rw [← hparts, widths, fieldBytes, List.map_map, List.map_map] at hwidths
  exact congrArg Prod.snd (List.map_inj_left.1 hwidths field hfield)

/-- **A compound value comes back exactly if its fields have the declared sizes and the two orders give
the same bytes.** -/
theorem compoundSerialises_iff (fields : List CompoundFieldInfo) (value : String → RuntimeValue) :
    CompoundSerialises fields value ↔ CompoundExact fields value := by
  unfold CompoundSerialises
  rw [serialises_iff_bytes]
  constructor
  · rintro ⟨-, hlisted, back, hback, heq⟩
    obtain ⟨hsized, hle, rfl⟩ := unpackCompoundValue_eq_ok.1 hback
    obtain ⟨entries, own, hentries, hpairs⟩ := eq_struct_iff.1 heq
    obtain ⟨rfl, -⟩ := RuntimeValue.struct.inj hentries
    obtain ⟨hscalar, hcollect⟩ := eq_compoundLayout_iff.1 hpairs
    have hparts := fieldBytes_of_layout hsized hle hcollect (hlisted ▸ hle)
    exact ⟨hsized, fits_of_layout hscalar hle hparts, hlisted⟩
  · rintro ⟨hsized, hfits, hlisted⟩
    refine ⟨?_, hlisted, _, unpackCompoundValue_eq_ok.2
      ⟨hsized, (length_contents_of_fits hfits).ge, rfl⟩, ?_⟩
    · intro name hname
      obtain ⟨field, hfield, rfl⟩ := List.mem_map.1 hname
      exact RuntimeValue.toScriptBytes_of_scalar (hfits field hfield).1
    · refine eq_struct_iff.2 ⟨_, _, rfl, eq_compoundLayout_iff.2 ⟨fun field hfield => ?_, ?_⟩⟩
      · exact (hfits field hfield).1
      · rw [compoundParts_of_fits hfits]

end Compound

/-! ### Reading a structure -/

section Structures

variable {findStruct : String → Option StructDefNode} {structDef : StructDefNode}
variable {value : String → RuntimeValue} {bytes : Bytes} {fieldType : StructFieldType}
variable {size : ℕ} {fields : List (String × StructFieldType)} {v : RuntimeValue}

def StructFieldType.layout (fieldType : StructFieldType) (bytes : Bytes) : RuntimeValue :=
  if fieldType.isCompoundType then
    .struct (compoundLayout fieldType.compoundFields bytes) "__compound__"
  else .fromBytes bytes fieldType.getTypeString

theorem fixedSize_compound (hcompound : fieldType.isCompoundType = true) :
    fieldType.fixedSize findStruct = some size ↔
      (∀ field ∈ fieldType.compoundFields, field.byteSize ≠ 0) ∧
        size = (fieldType.compoundFields.map (·.byteSize)).sum := by
  rw [StructFieldType.fixedSize, if_pos hcompound, StructFieldType.getTotalByteSize,
    if_pos hcompound]
  split_ifs with hsized
  · rw [Option.some.injEq]
    exact ⟨fun h => ⟨hsized, h.symm⟩, fun h => h.2.symm⟩
  · exact iff_of_false (fun h => nomatch h) fun h => hsized h.1

/-- **What is read as a field**: its bytes, where the layout has a fixed size for it. -/
theorem unpackStructField_eq_ok {offset : ℕ} {fieldName : String} {out : RuntimeValue} :
    unpackStructField findStruct bytes offset fieldName fieldType = .ok (out, size) ↔
      fieldType.fixedSize findStruct = some size ∧ offset + size ≤ bytes.length ∧
        out = fieldType.layout ((bytes.drop offset).take size) := by
  by_cases hcompound : fieldType.isCompoundType = true
  · have htotal : fieldType.getTotalByteSize = (fieldType.compoundFields.map (·.byteSize)).sum := by
      rw [StructFieldType.getTotalByteSize, if_pos hcompound]
    rw [unpackStructField, if_pos hcompound, fixedSize_compound hcompound, htotal,
      StructFieldType.layout, if_pos hcompound]
    constructor
    · intro h
      obtain ⟨part, hpart, h⟩ := bind_eq_ok_iff.1 h
      obtain ⟨hle, rfl⟩ := checkedSlice_eq_ok.1 hpart
      obtain ⟨read, hread, h⟩ := bind_eq_ok_iff.1 h
      obtain ⟨rfl, rfl⟩ := Prod.mk.inj (Except.ok.inj h)
      obtain ⟨hsized, -, rfl⟩ := unpackCompoundValue_eq_ok.1 hread
      exact ⟨⟨hsized, rfl⟩, hle, rfl⟩
    · rintro ⟨⟨hsized, rfl⟩, hle, rfl⟩
      refine bind_eq_ok_iff.2 ⟨_, checkedSlice_eq_ok.2 ⟨hle, rfl⟩, bind_eq_ok_iff.2
        ⟨_, unpackCompoundValue_eq_ok.2 ⟨hsized, ?_, rfl⟩, rfl⟩⟩
      rw [List.length_take_of_le]
      rw [List.length_drop]
      omega
  -- a field that is not compound is one slice of its own width
  · have hslice : ∀ (declaredType : String) (width : ℕ),
        ((do
          let fieldBytes ← checkedSlice bytes offset width fieldName
          return (RuntimeValue.fromBytes fieldBytes declaredType, width)) :
            Except RuntimeError (RuntimeValue × ℕ)) = .ok (out, size) ↔
          width = size ∧ offset + size ≤ bytes.length ∧
            out = .fromBytes ((bytes.drop offset).take size) declaredType := by
      intro declaredType width
      constructor
      · intro h
        obtain ⟨part, hpart, h⟩ := bind_eq_ok_iff.1 h
        obtain ⟨hle, rfl⟩ := checkedSlice_eq_ok.1 hpart
        obtain ⟨rfl, rfl⟩ := Prod.mk.inj (Except.ok.inj h)
        exact ⟨rfl, hle, rfl⟩
      · rintro ⟨rfl, hle, rfl⟩
        exact bind_eq_ok_iff.2 ⟨_, checkedSlice_eq_ok.2 ⟨hle, rfl⟩, rfl⟩
    rw [unpackStructField, if_neg hcompound, StructFieldType.fixedSize, if_neg hcompound,
      StructFieldType.layout, if_neg hcompound, StructFieldType.getTypeString, if_neg hcompound]
    by_cases harray : fieldType.isArray = true
    · rw [if_pos harray, if_pos harray]
      by_cases hzero : fieldType.getTotalByteSize = 0
      · simp only [hzero, if_true]
        exact iff_of_false (fun h => nomatch h) fun h => nomatch h.1
      · simp only [hzero, if_false, Option.some.injEq]
        rw [if_neg (by simpa using harray)]
        exact hslice _ _
    · have hsingle : (!fieldType.isArray) = true := by simpa using harray
      rw [if_neg harray, if_neg harray]
      by_cases hnested : (findStruct fieldType.baseType).isSome = true
      · rw [if_pos hnested, if_pos hnested]
        exact iff_of_false (fun h => nomatch h) fun h => nomatch h.1
      · rw [if_neg hnested, if_neg hnested]
        cases hwidth : fixedByteSizeForType fieldType.baseType with
        | error e => exact iff_of_false (fun h => nomatch h) fun h => nomatch h.1
        | ok width =>
            cases width with
            | none => exact iff_of_false (fun h => nomatch h) fun h => nomatch h.1
            | some width =>
                show _ ↔ some width = some size ∧ _
                rw [Option.some.injEq, if_pos hsingle]
                exact hslice _ _

/-- The declared number of bytes of a field. -/
def declaredSize (findStruct : String → Option StructDefNode) (field : String × StructFieldType) : ℕ :=
  (field.2.fixedSize findStruct).getD 0

/-- A field of a structure with its bytes. -/
def structEntry (part : (String × StructFieldType) × Bytes) : String × RuntimeValue :=
  (part.1.1, part.1.2.layout part.2)

theorem unpackStructFields_eq_ok {offset : ℕ}
    (hoffset : offset ≤ bytes.length) {result out : List (String × RuntimeValue)} :
    unpackStructFields findStruct bytes fields offset result = .ok out ↔
      (∀ field ∈ fields, (field.2.fixedSize findStruct).isSome = true) ∧
        offset + (fields.map (declaredSize findStruct)).sum ≤ bytes.length ∧
        out = ((cut (declaredSize findStruct) fields (bytes.drop offset)).map structEntry).foldl
          (fun container entry => insertEntry entry.1 entry.2 container) result := by
  induction fields generalizing offset result with
  | nil =>
      rw [unpackStructFields, Except.ok.injEq]
      constructor
      · rintro rfl
        exact ⟨fun field hfield => absurd hfield List.not_mem_nil, hoffset, rfl⟩
      · exact fun h => h.2.2.symm
  | cons field fields ih =>
      rw [unpackStructFields, List.forall_mem_cons, List.map_cons, List.sum_cons, cut,
        List.map_cons, List.foldl_cons, List.drop_drop]
      constructor
      · intro h
        obtain ⟨⟨value, size⟩, hfirst, h⟩ := bind_eq_ok_iff.1 h
        obtain ⟨hsize, hle, rfl⟩ := unpackStructField_eq_ok.1 hfirst
        obtain ⟨hsized, htotal, rfl⟩ := (ih hle).1 h
        have hdeclared : declaredSize findStruct field = size := by rw [declaredSize, hsize]; rfl
        rw [hdeclared]
        exact ⟨⟨by rw [hsize]; rfl, hsized⟩, by omega, rfl⟩
      · rintro ⟨⟨hsome, hsized⟩, htotal, hout⟩
        obtain ⟨size, hsize⟩ := Option.isSome_iff_exists.1 hsome
        have hdeclared : declaredSize findStruct field = size := by rw [declaredSize, hsize]; rfl
        rw [hdeclared] at htotal hout
        have hle : offset + size ≤ bytes.length := by omega
        refine bind_eq_ok_iff.2 ⟨(_, size), unpackStructField_eq_ok.2 ⟨hsize, hle, rfl⟩, ?_⟩
        exact (ih hle).2 ⟨hsized, by omega, hout⟩

/-- **What is read as a structure.** -/
theorem unpackStructValue_eq_ok {declaredType : String} {out : RuntimeValue} :
    unpackStructValue findStruct (.fromBytes bytes declaredType) structDef = .ok out ↔
      (∀ field ∈ structDef.fields, (field.2.fixedSize findStruct).isSome = true) ∧
        (structDef.fields.map (declaredSize findStruct)).sum ≤ bytes.length ∧
        out = .struct (collect ((cut (declaredSize findStruct) structDef.fields bytes).map
          structEntry)) structDef.name := by
  rw [unpackStructValue, toScriptBytes_fromBytes]
  constructor
  · intro h
    obtain ⟨_, hbytes, h⟩ := bind_eq_ok_iff.1 h
    obtain rfl := Except.ok.inj hbytes
    obtain ⟨result, hresult, h⟩ := bind_eq_ok_iff.1 h
    obtain ⟨hsized, htotal, rfl⟩ := (unpackStructFields_eq_ok (Nat.zero_le _)).1 hresult
    exact ⟨hsized, by omega, (Except.ok.inj h).symm⟩
  · rintro ⟨hsized, htotal, rfl⟩
    exact bind_eq_ok_iff.2 ⟨bytes, rfl, bind_eq_ok_iff.2 ⟨_,
      (unpackStructFields_eq_ok (Nat.zero_le _)).2 ⟨hsized, by omega, rfl⟩, rfl⟩⟩

/-! ### Fields that come back -/

/-- What is equal to a compound value that was read has the names of its type. -/
theorem exists_recordValue {fields : List CompoundFieldInfo} {declaredType : String}
    (h : v.eq (.struct (compoundLayout fields bytes) declaredType) = true) :
    ∃ inner own, v = recordValue (fields.map (·.name)) inner own ∧
      (∀ field ∈ fields, (inner field.name).isScalar = true) ∧
      collect (fieldBytes (fields.map (·.name)) inner) = collect (compoundParts fields bytes) := by
  obtain ⟨entries, own, rfl, hpairs⟩ := eq_struct_iff.1 h
  have hkeys : entries.map (·.1) =
      (collect ((fields.map (·.name)).map fun name => (name, ()))).map (·.1) := by
    have hlayout : (compoundLayout fields bytes).map (·.1) =
        (collect ((fields.map (·.name)).map fun name => (name, ()))).map (·.1) := by
      have hunits := map_collect (fun (_ : String) (_ : RuntimeValue) => ())
        ((cut (·.byteSize) fields bytes).map compoundEntry)
      have hnames : ((cut (·.byteSize) fields bytes).map compoundEntry).map
          (fun entry => (entry.1, ())) = (fields.map (·.name)).map fun name => (name, ()) := by
        rw [← map_fst_compoundParts fields bytes, compoundParts, List.map_map, List.map_map,
          List.map_map]
        rfl
      rw [hnames] at hunits
      rw [← hunits, List.map_map]
      rfl
    rw [← hlayout]
    exact List.forall₂_eq_eq_eq ▸ List.forall₂_map_left_iff.2
      (List.forall₂_map_right_iff.2 (hpairs.imp fun _ _ hab => hab.1))
  have : Nonempty RuntimeValue := ⟨.voidValue⟩
  obtain ⟨inner, rfl⟩ := exists_collect_map hkeys
  obtain ⟨hscalar, hcollect⟩ := eq_compoundLayout_iff.1 hpairs
  exact ⟨inner, own, rfl, hscalar, hcollect⟩

theorem scriptBytes_recordValue {fields : List CompoundFieldInfo} {inner : String → RuntimeValue}
    (h : ∀ field ∈ fields, (inner field.name).isScalar = true) (own : String) :
    (recordValue (fields.map (·.name)) inner own).scriptBytes =
      contents (collect (fieldBytes (fields.map (·.name)) inner)) := by
  refine RuntimeValue.scriptBytes_of_ok (toScriptBytes_recordValue ?_ own)
  intro name hname
  obtain ⟨field, hfield, rfl⟩ := List.mem_map.1 hname
  exact RuntimeValue.toScriptBytes_of_scalar (h field hfield)

theorem Listed.congr {names : List String} {inner other : String → RuntimeValue}
    {own otherType : String} (h : recordValue names inner own = recordValue names other otherType)
    (hlisted : Listed names inner) : Listed names other := by
  have heq := eqOn_of_collect_map (RuntimeValue.struct.inj h).1
  have hbytes : fieldBytes names inner = fieldBytes names other :=
    List.map_congr_left fun name hname => by rw [heq name hname]
  rw [Listed, ← hbytes]
  exact hlisted

/-- **What is equal to what is read as a field.** -/
theorem eq_layout_iff (hsize : fieldType.fixedSize findStruct = some size)
    (hlength : v.scriptBytes.length = size) :
    v.eq (fieldType.layout v.scriptBytes) = true ↔
      FieldFits fieldType v ∧ ∀ inner declaredType, fieldType.isCompoundType = true →
        v = recordValue (fieldType.compoundFields.map (·.name)) inner declaredType →
          Listed (fieldType.compoundFields.map (·.name)) inner := by
  by_cases hcompound : fieldType.isCompoundType = true
  · obtain ⟨hsized, rfl⟩ := (fixedSize_compound hcompound).1 hsize
    rw [StructFieldType.layout, if_pos hcompound]
    constructor
    · intro h
      obtain ⟨inner, own, rfl, hscalar, hcollect⟩ := exists_recordValue h
      have hbytes := scriptBytes_recordValue hscalar own
      have hparts := fieldBytes_of_layout hsized hlength.ge hcollect (hbytes ▸ hlength.ge)
      have hlisted : Listed (fieldType.compoundFields.map (·.name)) inner := by
        rw [Listed, ← hbytes, hparts, contents_compoundParts, List.take_of_length_le hlength.le]
      exact ⟨.compound hcompound (fits_of_layout hscalar hlength.ge hparts),
        fun other otherType _ h => hlisted.congr h⟩
    · rintro ⟨hfits, hlisted⟩
      cases hfits with
      | plain hplain _ => exact absurd (hcompound.symm.trans hplain) (by decide)
      | @compound inner own _ hinner =>
          have hscalar : ∀ field ∈ fieldType.compoundFields, (inner field.name).isScalar = true :=
            fun field hfield => (hinner field hfield).1
          have hbytes := (scriptBytes_recordValue hscalar own).trans (hlisted inner own hcompound rfl)
          refine eq_struct_iff.2 ⟨_, _, rfl, eq_compoundLayout_iff.2 ⟨hscalar, ?_⟩⟩
          rw [hbytes, compoundParts_of_fits hinner]
  · rw [StructFieldType.layout, if_neg hcompound, eq_fromBytes_iff]
    constructor
    · exact fun h => ⟨.plain (by simpa using hcompound) h.1, fun _ _ h => absurd h hcompound⟩
    · rintro ⟨hfits, -⟩
      cases hfits with
      | plain _ hscalar => exact ⟨hscalar, rfl⟩
      | compound h _ => exact absurd h hcompound

theorem length_le_of_eq_layout (hsize : fieldType.fixedSize findStruct = some bytes.length)
    (h : v.eq (fieldType.layout bytes) = true) : v.scriptBytes.length ≤ bytes.length := by
  by_cases hcompound : fieldType.isCompoundType = true
  · obtain ⟨-, htotal⟩ := (fixedSize_compound hcompound).1 hsize
    rw [StructFieldType.layout, if_pos hcompound] at h
    obtain ⟨inner, own, rfl, hscalar, hcollect⟩ := exists_recordValue h
    rw [scriptBytes_recordValue hscalar, hcollect]
    refine (length_contents_collect_le _).trans ?_
    rw [contents_compoundParts]
    exact List.length_take_le' _ _
  · rw [StructFieldType.layout, if_neg hcompound, eq_fromBytes_iff] at h
    rw [h.2]

/-! ### Structures that come back -/

theorem collect_recordEntries_fields (fields : List (String × StructFieldType))
    (value : String → RuntimeValue) :
    collect (recordEntries (fields.map (·.1)) value) =
      (collect fields).map fun field => (field.1, value field.1) := by
  rw [map_collect fun name (_ : StructFieldType) => value name, recordEntries, List.map_map]
  rfl

theorem contents_fieldBytes (fields : List (String × StructFieldType))
    (value : String → RuntimeValue) :
    contents (fieldBytes (fields.map (·.1)) value) =
      fields.flatMap fun field => (value field.1).scriptBytes := by
  rw [contents, fieldBytes, List.map_map, List.flatMap_map]
  rfl

/-- Where every field has the declared number of bytes, the value is compared field by field with what
is read from its bytes. -/
theorem eq_structLayout_iff
    (hsizes : ∀ field ∈ fields, (value field.1).scriptBytes.length = declaredSize findStruct field) :
    List.Forall₂ (fun a b => a.1 = b.1 ∧ a.2.eq b.2 = true)
        (collect (recordEntries (fields.map (·.1)) value))
        (collect ((cut (declaredSize findStruct) fields
          (contents (fieldBytes (fields.map (·.1)) value))).map structEntry)) ↔
      ∀ field ∈ collect fields,
        (value field.1).eq (field.2.layout (value field.1).scriptBytes) = true := by
  have hcut : cut (declaredSize findStruct) fields
      (fields.flatMap (fun field => (value field.1).scriptBytes) ++ []) =
        fields.map fun field => (field, (value field.1).scriptBytes) := cut_flatMap hsizes []
  have hlayout : collect ((cut (declaredSize findStruct) fields
      (contents (fieldBytes (fields.map (·.1)) value))).map structEntry) =
        (collect fields).map fun field =>
          (field.1, field.2.layout (value field.1).scriptBytes) := by
    rw [List.append_nil] at hcut
    rw [contents_fieldBytes, hcut, List.map_map,
      map_collect fun name (fieldType : StructFieldType) =>
        fieldType.layout (value name).scriptBytes]
    rfl
  rw [collect_recordEntries_fields, hlayout, List.forall₂_map_left_iff, List.forall₂_map_right_iff,
    List.forall₂_same]
  exact forall₂_congr fun field _ => and_iff_right rfl

theorem collect_structEntry (parts : List ((String × StructFieldType) × Bytes)) :
    collect (parts.map structEntry) =
      (collect (parts.map fun part => (part.1.1, part))).map fun entry =>
        (entry.1, entry.2.1.2.layout entry.2.2) := by
  rw [map_collect fun (_ : String) (part : (String × StructFieldType) × Bytes) =>
    part.1.2.layout part.2, List.map_map]
  rfl

/-- What comes back has at most the declared numbers of bytes, name by name. -/
theorem widths_le_of_layout
    (hsized : ∀ field ∈ fields, (field.2.fixedSize findStruct).isSome = true)
    (hle : (fields.map (declaredSize findStruct)).sum ≤ bytes.length)
    (hpairs : List.Forall₂ (fun a b => a.1 = b.1 ∧ a.2.eq b.2 = true)
      (collect (recordEntries (fields.map (·.1)) value))
      (collect ((cut (declaredSize findStruct) fields bytes).map structEntry))) :
    List.Forall₂ (fun a b => a.1 = b.1 ∧ a.2 ≤ b.2)
      (widths (collect (fieldBytes (fields.map (·.1)) value)))
      (collect (fields.map fun field => (field.1, declaredSize findStruct field))) := by
  have hlengths := length_of_mem_cut hle
  have hdeclared : collect (fields.map fun field => (field.1, declaredSize findStruct field)) =
      (collect ((cut (declaredSize findStruct) fields bytes).map fun part => (part.1.1, part))).map
        fun entry => (entry.1, entry.2.2.length) := by
    rw [map_collect fun (_ : String) (part : (String × StructFieldType) × Bytes) => part.2.length,
      List.map_map]
    conv_lhs => rw [← map_fst_cut (declaredSize findStruct) fields bytes, List.map_map]
    refine congrArg collect (List.map_congr_left fun part hpart => ?_)
    exact Prod.ext rfl (hlengths part hpart).symm
  rw [← entryBytes_collect_recordEntries, hdeclared, widths, entryBytes, List.map_map,
    List.forall₂_map_left_iff, List.forall₂_map_right_iff]
  rw [collect_structEntry, List.forall₂_map_right_iff] at hpairs
  -- every value that is read is that of a declared field over its bytes
  have hparts : ∀ entry ∈ collect ((cut (declaredSize findStruct) fields bytes).map
      fun part => (part.1.1, part)), entry.2 ∈ cut (declaredSize findStruct) fields bytes := by
    intro entry hentry
    obtain ⟨part, hpart, rfl⟩ := List.mem_map.1 (mem_of_mem_collect hentry)
    exact hpart
  have hread := (List.forall₂_and_left _ _).2 ⟨hparts, List.Forall₂.flip hpairs⟩
  refine List.Forall₂.flip (hread.imp ?_)
  rintro entry field ⟨hpart, hkey, heq⟩
  have hfield : entry.2.1 ∈ fields := by
    rw [← map_fst_cut (declaredSize findStruct) fields bytes]
    exact List.mem_map_of_mem hpart
  obtain ⟨size, hsize⟩ := Option.isSome_iff_exists.1 (hsized _ hfield)
  have hlength : entry.2.2.length = size := by
    rw [hlengths _ hpart, declaredSize, hsize]
    rfl
  exact ⟨hkey, length_le_of_eq_layout (hlength ▸ hsize) heq⟩

/-- A structure that comes back has the declared number of bytes in every field. -/
theorem sizes_of_layout (hsized : ∀ field ∈ fields, (field.2.fixedSize findStruct).isSome = true)
    (hlisted : Listed (fields.map (·.1)) value)
    (hle : (fields.map (declaredSize findStruct)).sum ≤
      (contents (fieldBytes (fields.map (·.1)) value)).length)
    (hpairs : List.Forall₂ (fun a b => a.1 = b.1 ∧ a.2.eq b.2 = true)
      (collect (recordEntries (fields.map (·.1)) value))
      (collect ((cut (declaredSize findStruct) fields
        (contents (fieldBytes (fields.map (·.1)) value))).map structEntry))) :
    ∀ field ∈ fields, (value field.1).scriptBytes.length = declaredSize findStruct field := by
  have hwritten := congrArg List.length hlisted
  rw [length_contents, length_contents] at hwritten
  rw [length_contents, ← hwritten] at hle
  have hsum : totalWidth (fields.map fun field => (field.1, declaredSize findStruct field)) =
      (fields.map (declaredSize findStruct)).sum := by
    rw [totalWidth, List.map_map]
    rfl
  have hdeclared := totalWidth_collect_le
    (fields.map fun field => (field.1, declaredSize findStruct field))
  have hequal := eq_of_totalWidth_le
    (widths_le_of_layout hsized (by rwa [length_contents, ← hwritten]) hpairs) (by omega)
  have hwidths : widths (fieldBytes (fields.map (·.1)) value) =
      (fields.map fun field => (field.1, declaredSize findStruct field)).map fun field =>
        (field.1, (value field.1).scriptBytes.length) := by
    rw [widths, fieldBytes, List.map_map, List.map_map, List.map_map]
    rfl
  rw [widths_collect] at hwritten hequal hle
  rw [hwidths] at hwritten hequal hle
  have htotal := congrArg totalWidth hequal
  intro field hfield
  exact (width_eq_of_collect (w := fun name => (value name).scriptBytes.length) hequal.symm
    (by omega) hwritten (field.1, declaredSize findStruct field) (List.mem_map_of_mem hfield)).symm

theorem FieldFits.toScriptBytes (h : FieldFits fieldType v) :
    v.toScriptBytes = .ok v.scriptBytes := by
  cases h with
  | plain _ hscalar => exact RuntimeValue.toScriptBytes_of_scalar hscalar
  | @compound inner own _ hinner =>
      have hscalar : ∀ field ∈ fieldType.compoundFields, (inner field.name).isScalar = true :=
        fun field hfield => (hinner field hfield).1
      rw [scriptBytes_recordValue hscalar]
      refine toScriptBytes_recordValue (fun name hname => ?_) own
      obtain ⟨field, hfield, rfl⟩ := List.mem_map.1 hname
      exact RuntimeValue.toScriptBytes_of_scalar (hscalar field hfield)

/-- **A structure comes back exactly if its fields have the declared sizes and the two orders give the
same bytes, in the compound fields too.** -/
theorem structSerialises_iff (findStruct : String → Option StructDefNode) (structDef : StructDefNode)
    (value : String → RuntimeValue) :
    StructSerialises findStruct structDef value ↔ StructExact findStruct structDef value := by
  unfold StructSerialises
  rw [serialises_iff_bytes]
  constructor
  · rintro ⟨-, hlisted, back, hback, heq⟩
    obtain ⟨hsized, hle, rfl⟩ := unpackStructValue_eq_ok.1 hback
    obtain ⟨entries, own, hentries, hpairs⟩ := eq_struct_iff.1 heq
    obtain ⟨rfl, -⟩ := RuntimeValue.struct.inj hentries
    have hsizes := sizes_of_layout hsized hlisted hle hpairs
    have hfields := (eq_structLayout_iff hsizes).1 hpairs
    have hfits : ∀ field ∈ collect structDef.fields, FieldFits field.2 (value field.1) ∧
        ∀ inner declaredType, field.2.isCompoundType = true →
          value field.1 = recordValue (field.2.compoundFields.map (·.name)) inner declaredType →
            Listed (field.2.compoundFields.map (·.name)) inner := by
      intro field hfield
      have hmem := mem_of_mem_collect hfield
      obtain ⟨size, hsize⟩ := Option.isSome_iff_exists.1 (hsized field hmem)
      have hlength := hsizes field hmem
      rw [declaredSize, hsize] at hlength
      exact (eq_layout_iff hsize hlength).1 (hfields field hfield)
    refine ⟨hsized, ⟨fun field hfield size hsize => ?_, fun field hfield => (hfits field hfield).1⟩,
      hlisted, fun field hfield => (hfits field hfield).2⟩
    rw [hsizes field hfield, declaredSize, hsize]
    rfl
  · rintro ⟨hsized, hfits, hlisted, hnested⟩
    have hsizes : ∀ field ∈ structDef.fields,
        (value field.1).scriptBytes.length = declaredSize findStruct field := by
      intro field hfield
      obtain ⟨size, hsize⟩ := Option.isSome_iff_exists.1 (hsized field hfield)
      rw [hfits.sizes field hfield size hsize, declaredSize, hsize]
      rfl
    have hlength : (contents (fieldBytes (structDef.fields.map (·.1)) value)).length =
        (structDef.fields.map (declaredSize findStruct)).sum := by
      rw [contents_fieldBytes, List.length_flatMap]
      exact congrArg List.sum (List.map_congr_left hsizes)
    refine ⟨?_, hlisted, _, unpackStructValue_eq_ok.2 ⟨hsized, hlength.ge, rfl⟩,
      eq_struct_iff.2 ⟨_, _, rfl, (eq_structLayout_iff hsizes).2 fun field hfield => ?_⟩⟩
    · intro name hname
      obtain ⟨field, hfield, rfl⟩ := List.mem_map.1 hname
      obtain ⟨fieldType, hlast⟩ := exists_mem_collect hfield
      exact (hfits.values _ hlast).toScriptBytes
    · have hmem := mem_of_mem_collect hfield
      obtain ⟨size, hsize⟩ := Option.isSome_iff_exists.1 (hsized field hmem)
      exact (eq_layout_iff hsize (hfits.sizes field hmem size hsize)).2
        ⟨hfits.values field hfield, hnested field hfield⟩

end Structures

/-! ### Ordered types -/

/-- Declared by name, the fitting values of a compound type are written in the declared order. -/
theorem CompoundOrdered.listed {fields : List CompoundFieldInfo} {value : String → RuntimeValue}
    (h : CompoundOrdered fields) (hfits : CompoundFits fields value) :
    Listed (fields.map (·.name)) value := by
  refine contents_collect ?_
  have hwidths : widths (fieldBytes (fields.map (·.name)) value) =
      fields.map fun field => (field.name, field.byteSize) := by
    rw [widths, fieldBytes, List.map_map, List.map_map]
    exact List.map_congr_left fun field hfield => Prod.ext rfl (hfits field hfield).2
  rw [hwidths]
  exact h.ordered

section Ordered

variable {findStruct : String → Option StructDefNode} {structDef : StructDefNode}
  {value : String → RuntimeValue}

theorem StructOrdered.listed (h : StructOrdered findStruct structDef)
    (hfits : StructFits findStruct structDef value) : Listed (structDef.fields.map (·.1)) value := by
  refine contents_collect ?_
  have hwidths : widths (fieldBytes (structDef.fields.map (·.1)) value) =
      structDef.fields.map fun field => (field.1, (field.2.fixedSize findStruct).getD 0) := by
    rw [widths, fieldBytes, List.map_map, List.map_map]
    refine List.map_congr_left fun field hfield => Prod.ext rfl ?_
    obtain ⟨size, hsize⟩ := Option.isSome_iff_exists.1 (h.sized field hfield)
    show (value field.1).scriptBytes.length = _
    rw [hfits.sizes field hfield size hsize, hsize]
    rfl
  rw [hwidths]
  exact h.ordered

theorem StructOrdered.exact (h : StructOrdered findStruct structDef)
    (hfits : StructFits findStruct structDef value) : StructExact findStruct structDef value := by
  refine ⟨h.sized, hfits, h.listed hfits, fun field hfield inner own hcompound hvalue => ?_⟩
  have hfield' := hfits.values field hfield
  rw [hvalue] at hfield'
  generalize hv : recordValue (field.2.compoundFields.map (·.name)) inner own = v at hfield'
  cases hfield' with
  | plain hplain _ => exact absurd (hcompound.symm.trans hplain) (by decide)
  | compound _ hinner => exact ((h.nested field hfield hcompound).listed hinner).congr hv.symm

end Ordered

/-- **When the values of compound and structure types are written in the declared order and read back.**
A value is exactly if the fields of its type have fixed sizes, it has as many bytes in every field, as a
number, a truth value or bytes, and the order of the names gives the bytes of the declared order.  The
last is so for every value with the declared sizes if the fields with any bytes are declared by name. -/
theorem serialises_iff (fields : List CompoundFieldInfo)
    (findStruct : String → Option StructDefNode) (structDef : StructDefNode) :
    ((∀ value, CompoundSerialises fields value ↔ CompoundExact fields value) ∧
      ∀ value, StructSerialises findStruct structDef value ↔
        StructExact findStruct structDef value) ∧
    (CompoundOrdered fields →
      ∀ value, CompoundFits fields value → CompoundSerialises fields value) ∧
    (StructOrdered findStruct structDef →
      ∀ value, StructFits findStruct structDef value → StructSerialises findStruct structDef value) := by
  have hcompound := compoundSerialises_iff fields
  have hstruct := structSerialises_iff findStruct structDef
  refine ⟨⟨hcompound, hstruct⟩, fun h value hfits => ?_, fun h value hfits => ?_⟩
  · exact (hcompound value).2 ⟨h.sized, hfits, h.listed hfits⟩
  · exact (hstruct value).2 (h.exact hfits)

/-- `compound {a: hex1, b: hex1}`. -/
def orderedPair : List CompoundFieldInfo := [⟨"a", "hex1", 1⟩, ⟨"b", "hex1", 1⟩]

def pairField : StructFieldType :=
  { baseType := "", isCompoundType := true, compoundFields := orderedPair }

/-- A structure of such a pair `p` and a byte `q`. -/
def orderedStruct : StructDefNode := ⟨"S", [("p", pairField), ("q", { baseType := "hex1" })]⟩

def orderedPairOf (_ : String) : RuntimeValue := .fromBytes [1] "hex1"

def orderedStructOf (name : String) : RuntimeValue :=
  if name = "p" then recordValue ["a", "b"] orderedPairOf "__compound__" else .fromBytes [2] "hex1"

theorem ordered_serialise : CompoundSerialises orderedPair orderedPairOf ∧
    StructSerialises (fun _ => none) orderedStruct orderedStructOf := by
  have hpair : CompoundOrdered orderedPair := ⟨by decide, by decide⟩
  have hpairFits : CompoundFits orderedPair orderedPairOf := by
    unfold CompoundFits
    decide
  have hfields : ∀ field ∈ collect orderedStruct.fields,
      field = ("p", pairField) ∨ field = ("q", { baseType := "hex1" }) := by
    intro field hfield
    simpa [orderedStruct] using mem_of_mem_collect hfield
  have hstruct : StructOrdered (fun _ => none) orderedStruct := by
    refine ⟨by decide, by decide, ?_⟩
    intro field hfield hcompound
    rcases hfields field hfield with rfl | rfl
    · exact hpair
    · cases hcompound
  have hstructFits : StructFits (fun _ => none) orderedStruct orderedStructOf := by
    refine ⟨by decide, fun field hfield => ?_⟩
    rcases hfields field hfield with rfl | rfl
    · exact .compound rfl hpairFits
    · exact .plain rfl rfl
  obtain ⟨-, hcompound, hstructs⟩ := serialises_iff orderedPair (fun _ => none) orderedStruct
  exact ⟨hcompound hpair _ hpairFits, hstructs hstruct _ hstructFits⟩

/-- Two bytes `b` and `a`. -/
def hexPair : List CompoundFieldInfo := [⟨"b", "hex1", 1⟩, ⟨"a", "hex1", 1⟩]

def hexPairOf (b a : UInt8) (name : String) : RuntimeValue :=
  .fromBytes [if name = "b" then b else a] "hex1"

/-- Of `b = 1` and `a = 2` the byte of `a` is written first, and what is read from that has them
swapped. -/
theorem hex_pair_swapped :
    (recordValue ["b", "a"] (hexPairOf 1 2) "__compound__").toScriptBytes = .ok [2, 1] ∧
      RuntimeValue.toScriptBytesFields (recordEntries ["b", "a"] (hexPairOf 1 2)) = .ok [1, 2] ∧
      unpackCompoundValue (.fromBytes [2, 1]) hexPair =
        .ok (recordValue ["b", "a"] (hexPairOf 2 1) "__compound__") ∧
      CompoundFits hexPair (hexPairOf 1 2) ∧ ¬ CompoundSerialises hexPair (hexPairOf 1 2) := by
  have hwritten : (recordValue ["b", "a"] (hexPairOf 1 2) "__compound__").toScriptBytes =
      .ok [2, 1] := rfl
  have hdeclared : RuntimeValue.toScriptBytesFields (recordEntries ["b", "a"] (hexPairOf 1 2)) =
      .ok [1, 2] := rfl
  refine ⟨hwritten, hdeclared, rfl, ?_, ?_⟩
  · intro field hfield
    obtain rfl | rfl : field = ⟨"b", "hex1", 1⟩ ∨ field = ⟨"a", "hex1", 1⟩ := by
      simpa [hexPair] using hfield
    · exact ⟨rfl, rfl⟩
    · exact ⟨rfl, rfl⟩
  · rintro ⟨bytes, hbytes, hbytes', -⟩
    have hsame := (hwritten.symm.trans hbytes).trans (hdeclared.symm.trans hbytes').symm
    exact absurd (Except.ok.inj hsame) (by decide)

end AtomicProof
