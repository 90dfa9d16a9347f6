/-
**Transaction contexts as assignments.**

A transaction context is a JSON object.  `flattenJsonAssignments` writes each scalar of it as an
assignment `path=value`, and `parseRuntimeFieldAssignments` builds fields from these texts again.  The
texts are the interface of the interpreter: a key may itself be a path, and a string is a value in
the notation of arguments.  So the way through the texts loses nothing exactly where the keys do not
use that freedom: below such keys every scalar comes back at its own path, and the order of the
assignments does not matter.

Main definitions:

* `AtomicProof.Json`, `AtomicProof.flattenJsonAssignments`;
* `AtomicProof.Json.fieldLeaves`, `AtomicProof.RuntimeValue.fieldLeaves` — the scalars of an object
  and of fields, with their paths;
* `AtomicProof.Rebuilds` — an object comes back from its assignments;
* `AtomicProof.Json.Solid`, `AtomicProof.Json.Readable` — the objects this is about.

Main results:

* `AtomicProof.flattenFields_eq` — the assignments are the printed paths of the scalars;
* `AtomicProof.pairwise_apart_fieldLeaves` — the paths of two scalars do not meet;
* `AtomicProof.foldl_fieldLeaves` — inserting the scalars in order builds the fields;
* `AtomicProof.rebuilds_of_readable` — **an object with readable keys and scalars comes back**.
-/

import AtomicProof.RuntimeArgument

set_option autoImplicit false

namespace AtomicProof

/-! ### JSON values -/

/-- A JSON value.  The fields of an object stand in the order of their keys, as `std::map` holds
them; a floating-point number is never read. -/
inductive Json
  | null
  | boolean (value : Bool)
  | integer (value : ℤ)
  | unsigned (value : ℕ)
  | float
  | string (value : String)
  | array (values : List Json)
  | object (fields : List (String × Json))

/-- `jsonScalarToRuntimeText`.  The test for a signed integer holds of an unsigned one too, so the
unsigned number is taken for a signed one of 64 bits. -/
def jsonScalarToRuntimeText (value : Json) (path : String) : Except RuntimeError String :=
  match value with
  | .string value => .ok value
  | .boolean value => .ok (if value then "true" else "false")
  | .integer value => .ok (toString value)
  | .unsigned value =>
      .ok (toString (if value < 2 ^ 63 then (value : ℤ) else (value : ℤ) - 2 ^ 64))
  | .float =>
      .error (runtimeError ("JSON transaction context path '" ++ path ++
        "' uses a floating-point number; use an integer or string"))
  | .null => .ok ""
  | _ =>
      .error (runtimeError ("JSON transaction context path '" ++ path ++ "' is not a scalar value"))

mutual

def flattenJsonAssignments (value : Json) (path : String) : Except RuntimeError (List String) :=
  match value with
  | .null => .ok []
  | .object fields => flattenFields fields path
  | .array values => flattenElements values path 0
  | value =>
      if path = "" then
        .error (runtimeError "JSON transaction context cannot flatten a scalar without a path")
      else do
        let text ← jsonScalarToRuntimeText value path
        pure [path ++ "=" ++ text]

/-- The fields of an object, one after the other. -/
def flattenFields : List (String × Json) → String → Except RuntimeError (List String)
  | [], _ => .ok []
  | (fieldName, fieldValue) :: rest, path => do
      let childPath := if path = "" then fieldName else path ++ "." ++ fieldName
      let first ← flattenJsonAssignments fieldValue childPath
      let more ← flattenFields rest path
      pure (first ++ more)

/-- The elements of an array from an index on. -/
def flattenElements : List Json → String → ℕ → Except RuntimeError (List String)
  | [], _, _ => .ok []
  | value :: rest, path, i => do
      let first ← flattenJsonAssignments value (path ++ "[" ++ toString i ++ "]")
      let more ← flattenElements rest path (i + 1)
      pure (first ++ more)

end

/-! ### Scalars and their paths -/

mutual

/-- The scalars of a value below a part of a path. -/
def Json.leavesAt (segment : PathSegment) : Json → List (List PathSegment × Json)
  | .object fields => (Json.fieldLeaves fields).map fun leaf => (segment :: leaf.1, leaf.2)
  | .array values => Json.elementLeaves segment.name 0 values
  | value => [([segment], value)]

def Json.fieldLeaves : List (String × Json) → List (List PathSegment × Json)
  | [] => []
  | (name, value) :: rest => Json.leavesAt { name := name } value ++ Json.fieldLeaves rest

/-- The scalars of an array from an index on. -/
def Json.elementLeaves (name : String) : ℕ → List Json → List (List PathSegment × Json)
  | _, [] => []
  | i, value :: rest =>
      Json.leavesAt { name := name, index := some i } value ++ Json.elementLeaves name (i + 1) rest

end

mutual

/-- The leaves of a runtime value below a part of a path. -/
def RuntimeValue.leavesAt (segment : PathSegment) :
    RuntimeValue → List (List PathSegment × RuntimeValue)
  | .struct fields _ => (RuntimeValue.fieldLeaves fields).map fun leaf => (segment :: leaf.1, leaf.2)
  | .array values _ => RuntimeValue.elementLeaves segment.name 0 values
  | value => [([segment], value)]

def RuntimeValue.fieldLeaves : List (String × RuntimeValue) → List (List PathSegment × RuntimeValue)
  | [] => []
  | (name, value) :: rest =>
      RuntimeValue.leavesAt { name := name } value ++ RuntimeValue.fieldLeaves rest

/-- The leaves of an array from an index on. -/
def RuntimeValue.elementLeaves (name : String) :
    ℕ → List RuntimeValue → List (List PathSegment × RuntimeValue)
  | _, [] => []
  | i, value :: rest =>
      RuntimeValue.leavesAt { name := name, index := some i } value ++
        RuntimeValue.elementLeaves name (i + 1) rest

end

/-- The value a scalar stands for; a string is read in the notation of arguments. -/
def Json.scalarValue : Json → RuntimeValue
  | .boolean value => .fromBool value
  | .integer value => .fromInt value
  | .unsigned value => .fromInt value
  | .string value =>
      match parseRuntimeArgument value "" with
      | .ok result => result
      | .error _ => .fromString value
  | _ => .voidValue

/-- **An object comes back from its assignments**: there is one assignment for each scalar, no two
scalars have one path, and in every order the assignments give fields with exactly one leaf for each
scalar, at the same path and with its value. -/
def Rebuilds (fields : List (String × Json)) (optionName : String) : Prop :=
  ∃ assignments rebuilt, flattenJsonAssignments (.object fields) "" = .ok assignments ∧
    (∀ reordered, reordered.Perm assignments →
      parseRuntimeFieldAssignments reordered optionName = .ok rebuilt) ∧
    RuntimeValue.fieldLeaves rebuilt =
      (Json.fieldLeaves fields).map (fun leaf => (leaf.1, leaf.2.scalarValue)) ∧
    ((Json.fieldLeaves fields).map (·.1)).Nodup ∧
    assignments.length = (Json.fieldLeaves fields).length

/-! ### The objects -/

def Json.isArray : Json → Bool
  | .array _ => true
  | _ => false

/-- A JSON value that the code can hold, without null, empty containers and directly nested
arrays. -/
inductive Json.Solid : Json → Prop
  | boolean (value : Bool) : Solid (.boolean value)
  | integer (value : ℤ) : -(2 ^ 63) ≤ value → value < 2 ^ 63 → Solid (.integer value)
  | unsigned (value : ℕ) : value < 2 ^ 64 → Solid (.unsigned value)
  | float : Solid .float
  | string (value : String) : Solid (.string value)
  | array (values : List Json) : values ≠ [] → values.length ≤ 2 ^ 64 →
      (∀ value ∈ values, value.isArray = false) → (∀ value ∈ values, Solid value) →
      Solid (.array values)
  | object (fields : List (String × Json)) : fields ≠ [] → fields.Pairwise (·.1 < ·.1) →
      (∀ field ∈ fields, Solid field.2) → Solid (.object fields)

/-- The text of a number is a sign, or none, and digits to its end: `std::stoll` does not look at what
comes after the digits. -/
def isWholeNumber (text : List Char) : Bool :=
  match text with
  | '-' :: digits => digits.all Char.isDigit
  | '+' :: digits => digits.all Char.isDigit
  | digits => digits.all Char.isDigit

/-- Keys that are no paths, numbers that are signed integers of 64 bits, and strings that are values
in the notation of arguments, whole numbers among them. -/
inductive Json.Readable : Json → Prop
  | boolean (value : Bool) : Readable (.boolean value)
  | integer (value : ℤ) : Readable (.integer value)
  | unsigned (value : ℕ) : value < 2 ^ 63 → Readable (.unsigned value)
  | string (value : String) (result : RuntimeValue) : parseRuntimeArgument value "" = .ok result →
      (∀ number type, result = .int number type → isWholeNumber (trimmed value.toList) = true) →
      Readable (.string value)
  | array (values : List Json) : (∀ value ∈ values, Readable value) → Readable (.array values)
  | object (fields : List (String × Json)) : (∀ field ∈ fields, PlainName field.1) →
      (∀ field ∈ fields, Readable field.2) → Readable (.object fields)

/-! ### The assignments of an object -/

def Json.scalarText : Json → String
  | .boolean value => if value then "true" else "false"
  | .integer value => toString value
  | .unsigned value => toString (value : ℤ)
  | .string value => value
  | _ => ""

def Json.isScalar : Json → Bool
  | .array _ => false
  | .object _ => false
  | _ => true

theorem RuntimeValue.leavesAt_of_isContainer {value : RuntimeValue}
    (h : value.isContainer = false) (segment : PathSegment) :
    value.leavesAt segment = [([segment], value)] := by
  cases value with
  | struct fields declaredType => cases h
  | array values declaredType => cases h
  | _ => rfl

variable {value : Json} {path : List PathSegment} {segment : PathSegment} {name : String}
  {values : List Json} {fields : List (String × Json)} {leaf : List PathSegment × Json}

/-- The induction over a readable value: its scalars, its arrays and its objects. -/
@[elab_as_elim]
theorem Json.Solid.readable_induction {motive : Json → Prop} (h : value.Solid)
    (hread : value.Readable)
    (scalar : ∀ value : Json, value.Solid → value.Readable → value.isScalar = true → motive value)
    (array : ∀ values : List Json, values.length ≤ 2 ^ 64 → (∀ value ∈ values, value.isArray = false) →
      (∀ value ∈ values, motive value) → motive (.array values))
    (object : ∀ fields : List (String × Json), (∀ field ∈ fields, PlainName field.1) →
      (∀ field ∈ fields, motive field.2) → motive (.object fields)) : motive value := by
  induction h with
  | boolean value => exact scalar _ (.boolean value) hread rfl
  | integer value hlow hhigh => exact scalar _ (.integer value hlow hhigh) hread rfl
  | unsigned value hvalue => exact scalar _ (.unsigned value hvalue) hread rfl
  | float => cases hread
  | string value => exact scalar _ (.string value) hread rfl
  | array values hne hlen harray hsolid ih =>
      cases hread with
      | array _ hvalues =>
          exact array values hlen harray fun value hmem => ih value hmem (hvalues value hmem)
  | object fields hne hsorted hsolid ih =>
      cases hread with
      | object _ hnames hvalues =>
          exact object fields hnames fun field hfield => ih field hfield (hvalues field hfield)

/-- The text of a readable scalar is written, and read as its value. -/
theorem readable_scalar (h : value.Solid) (hread : value.Readable)
    (hscalar : value.isScalar = true) :
    (∀ path, jsonScalarToRuntimeText value path = .ok value.scalarText) ∧
      parseRuntimeArgument value.scalarText "" = .ok value.scalarValue ∧
      ∀ segment, value.scalarValue.leavesAt segment = [([segment], value.scalarValue)] := by
  cases hread with
  | boolean value => cases value <;> exact ⟨fun _ => rfl, rfl, fun _ => rfl⟩
  | integer value =>
      cases h with
      | integer _ hlow hhigh =>
          exact ⟨fun _ => rfl, parseRuntimeArgument_toString value hlow hhigh, fun _ => rfl⟩
  | unsigned value hvalue =>
      refine ⟨fun path => ?_, parseRuntimeArgument_toString value (by omega) (by omega),
        fun _ => rfl⟩
      rw [jsonScalarToRuntimeText, if_pos hvalue]
      rfl
  | string value result hresult _ =>
      have hvalue : (Json.string value).scalarValue = result := by
        rw [Json.scalarValue, hresult]
      rw [hvalue]
      refine ⟨fun _ => rfl, hresult, fun segment => ?_⟩
      exact RuntimeValue.leavesAt_of_isContainer (isContainer_parseRuntimeArgument hresult) segment
  | array => cases hscalar
  | object => cases hscalar

/-- A path grows by its last part. -/
theorem printPath_concat (path : List PathSegment) (segment : PathSegment) :
    printPath (path ++ [segment]) =
      if path = [] then printSegment segment else printPath path ++ "." ++ printSegment segment := by
  induction path with
  | nil => rfl
  | cons first path ih =>
      rw [if_neg (List.cons_ne_nil _ _)]
      cases path with
      | nil => rfl
      | cons next path =>
          rw [List.cons_append, List.cons_append, printPath, ← List.cons_append, ih,
            if_neg (List.cons_ne_nil _ _), printPath]
          simp only [String.append_assoc]

theorem printPath_ne_empty (hne : path ≠ [])
    (h : ∀ segment ∈ path, PlainSegment segment) : printPath path ≠ "" := by
  intro hempty
  have hsplit := splitPath_printPath path hne h
  rw [hempty] at hsplit
  obtain ⟨segment, rest, rfl⟩ := List.exists_cons_of_ne_nil hne
  have htext : (printSegment segment).toList = [] := (List.cons.inj hsplit).1.symm
  have := parseSegment_printSegment "" segment (h segment (List.mem_cons_self ..))
  rw [htext] at this
  have hsegment : PathSegment.mk "" none = segment := Except.ok.inj this
  exact (h segment (List.mem_cons_self ..)).1.1 (hsegment ▸ rfl)

/-- The assignment of a leaf below a path. -/
def assignmentOf (path : List PathSegment) (leaf : List PathSegment × Json) : String :=
  printPath (path ++ leaf.1) ++ "=" ++ leaf.2.scalarText

/-- A context for a leaf: a path of parts that can be read back. -/
def PlainPath (path : List PathSegment) : Prop := ∀ segment ∈ path, PlainSegment segment

theorem PlainPath.concat (h : PlainPath path)
    (hsegment : PlainSegment segment) : PlainPath (path ++ [segment]) := by
  intro s hs
  rcases List.mem_append.1 hs with hs | hs
  · exact h s hs
  · obtain rfl := List.mem_singleton.1 hs
    exact hsegment

theorem plainSegment_of_plainName (h : PlainName name) :
    PlainSegment { name := name } := ⟨h, fun _ hindex => by cases hindex⟩

/-- The fields of an object below a path, from what is known of each. -/
theorem flattenFields_of {path : List PathSegment} (hpath : PlainPath path)
    {fields : List (String × Json)} (hname : ∀ field ∈ fields, PlainName field.1)
    (h : ∀ field ∈ fields, flattenJsonAssignments field.2 (printPath (path ++ [{ name := field.1 }])) =
      .ok ((field.2.leavesAt { name := field.1 }).map (assignmentOf path))) :
    flattenFields fields (printPath path) =
      .ok ((Json.fieldLeaves fields).map (assignmentOf path)) := by
  induction fields with
  | nil => rfl
  | cons field rest ih =>
      obtain ⟨name, value⟩ := field
      rw [List.forall_mem_cons] at hname h
      have hchild : (if printPath path = "" then name else printPath path ++ "." ++ name) =
          printPath (path ++ [{ name := name }]) := by
        rw [printPath_concat]
        by_cases hnil : path = []
        · subst hnil
          rfl
        · rw [if_neg (printPath_ne_empty hnil hpath), if_neg hnil]
          rfl
      rw [flattenFields, hchild, h.1, ih hname.2 h.2, Json.fieldLeaves, List.map_append]
      rfl

/-- The elements of an array, from what is known of each. -/
theorem flattenElements_of (name : String) (i : ℕ)
    (h : ∀ (j : ℕ) (value : Json), values[j]? = some value →
      flattenJsonAssignments value (printPath (path ++ [{ name := name, index := some (i + j) }])) =
        .ok ((value.leavesAt { name := name, index := some (i + j) }).map (assignmentOf path))) :
    flattenElements values (printPath (path ++ [{ name := name }])) i =
      .ok ((Json.elementLeaves name i values).map (assignmentOf path)) := by
  induction values generalizing i with
  | nil => rfl
  | cons value rest ih =>
      have hchild : printPath (path ++ [{ name := name }]) ++ "[" ++ toString i ++ "]" =
          printPath (path ++ [{ name := name, index := some i }]) := by
        rw [printPath_concat, printPath_concat]
        split_ifs
        · rfl
        · simp only [printSegment, String.append_assoc]
      have hrest := ih (i + 1) fun j value hj => by
        have := h (j + 1) value hj
        rwa [Nat.add_comm j 1, ← Nat.add_assoc] at this
      have hfirst := h 0 value rfl
      rw [Nat.add_zero] at hfirst
      rw [flattenElements, hchild, hfirst, hrest, Json.elementLeaves, List.map_append]
      rfl

/-- **The assignments are the printed paths of the scalars**, below any path. -/
theorem flatten_eq (h : value.Solid) (hread : value.Readable) :
    ∀ (path : List PathSegment) (segment : PathSegment), PlainPath path → PlainSegment segment →
      (value.isArray = true → segment.index = none) →
      flattenJsonAssignments value (printPath (path ++ [segment])) =
        .ok ((value.leavesAt segment).map (assignmentOf path)) := by
  refine Json.Solid.readable_induction h hread ?_ ?_ ?_
  · intro value hsolid hread hs path segment hpath hsegment _
    obtain ⟨htext, -, -⟩ := readable_scalar hsolid hread hs
    have hne : printPath (path ++ [segment]) ≠ "" :=
      printPath_ne_empty (by simp) (hpath.concat hsegment)
    cases hread with
    | array => cases hs
    | object => cases hs
    | _ =>
        rw [flattenJsonAssignments, if_neg hne, htext] <;> first
          | rfl
          | (intros; contradiction)
  · intro values hlen harray ih path segment hpath hsegment hindex
    obtain ⟨name, index⟩ := segment
    obtain rfl : index = none := hindex rfl
    rw [flattenJsonAssignments]
    refine flattenElements_of name 0 fun j value hj => ?_
    have hmem := List.mem_of_getElem? hj
    have hj' : j < values.length := (List.getElem?_eq_some_iff.1 hj).1
    refine ih value hmem path _ hpath ⟨hsegment.1, ?_⟩ ?_
    · intro i hi
      obtain rfl := Option.some.inj hi
      omega
    · intro harray'
      rw [harray value hmem] at harray'
      cases harray'
  · intro fields hnames ih path segment hpath hsegment _
    rw [flattenJsonAssignments]
    have hfields := flattenFields_of (hpath.concat hsegment) hnames fun field hfield =>
      ih field hfield (path ++ [segment]) { name := field.1 } (hpath.concat hsegment)
        (plainSegment_of_plainName (hnames field hfield)) fun _ => rfl
    rw [hfields, Json.leavesAt, List.map_map]
    congr 2
    funext leaf
    simp only [assignmentOf, Function.comp_apply, List.append_assoc, List.singleton_append]

/-! ### The paths of the scalars -/

/-- A scalar with its path: the path is not empty, can be printed and read back, and the scalar
can be written and read back. -/
structure PlainLeaf (leaf : List PathSegment × Json) : Prop where
  path : PlainPath leaf.1
  solid : leaf.2.Solid
  readable : leaf.2.Readable
  scalar : leaf.2.isScalar = true

def BeginsAt (segment : PathSegment) (leaf : List PathSegment × Json) : Prop :=
  ∃ rest, leaf.1 = segment :: rest

theorem plainLeaf_scalar (hsolid : value.Solid) (hread : value.Readable)
    (hscalar : value.isScalar = true) (hsegment : PlainSegment segment) :
    ∀ leaf ∈ value.leavesAt segment, PlainLeaf leaf ∧ BeginsAt segment leaf := by
  have hleaves : value.leavesAt segment = [([segment], value)] := by
    cases value with
    | array values => cases hscalar
    | object fields => cases hscalar
    | _ => rfl
  rw [hleaves]
  intro leaf hleaf
  obtain rfl := List.mem_singleton.1 hleaf
  refine ⟨⟨?_, hsolid, hread, hscalar⟩, [], rfl⟩
  intro s hs
  obtain rfl := List.mem_singleton.1 hs
  exact hsegment

theorem mem_fieldLeaves (h : leaf ∈ Json.fieldLeaves fields) :
    ∃ field ∈ fields, leaf ∈ field.2.leavesAt { name := field.1 } := by
  induction fields with
  | nil => cases h
  | cons field rest ih =>
      rw [Json.fieldLeaves, List.mem_append] at h
      rcases h with h | h
      · exact ⟨field, List.mem_cons_self .., h⟩
      · obtain ⟨other, hother, hleaf⟩ := ih h
        exact ⟨other, List.mem_cons_of_mem _ hother, hleaf⟩

theorem mem_elementLeaves {i : ℕ} (h : leaf ∈ Json.elementLeaves name i values) :
    ∃ (j : ℕ) (value : Json), values[j]? = some value ∧
      leaf ∈ value.leavesAt { name := name, index := some (i + j) } := by
  induction values generalizing i with
  | nil => cases h
  | cons value rest ih =>
      rw [Json.elementLeaves, List.mem_append] at h
      rcases h with h | h
      · exact ⟨0, value, rfl, h⟩
      · obtain ⟨j, other, hother, hleaf⟩ := ih h
        refine ⟨j + 1, other, hother, ?_⟩
        rwa [Nat.add_comm j 1, ← Nat.add_assoc]

/-- The leaves of a value that is no array begin at its part of the path; those of an array begin at
an element of that name. -/
theorem plainLeaf_leavesAt (h : value.Solid) (hread : value.Readable) :
    ∀ segment : PathSegment, PlainSegment segment → ∀ leaf ∈ value.leavesAt segment,
      PlainLeaf leaf ∧ (value.isArray = false → BeginsAt segment leaf) ∧
        (value.isArray = true → ∃ i, BeginsAt { name := segment.name, index := some i } leaf) := by
  refine Json.Solid.readable_induction h hread ?_ ?_ ?_
  · intro value hsolid hread hs segment hsegment leaf hleaf
    obtain ⟨hplain, hbegins⟩ := plainLeaf_scalar hsolid hread hs hsegment leaf hleaf
    refine ⟨hplain, fun _ => hbegins, fun harray => ?_⟩
    cases value <;> cases hs <;> cases harray
  · intro values hlen harray ih segment hsegment leaf hleaf
    obtain ⟨j, value, hj, hleaf⟩ := mem_elementLeaves hleaf
    have hmem := List.mem_of_getElem? hj
    have hj' : j < values.length := (List.getElem?_eq_some_iff.1 hj).1
    have hplain : PlainSegment { name := segment.name, index := some (0 + j) } := by
      refine ⟨hsegment.1, fun i hi => ?_⟩
      obtain rfl := Option.some.inj hi
      omega
    obtain ⟨hleaf', hbegins, -⟩ := ih value hmem _ hplain leaf hleaf
    exact ⟨hleaf', nofun, fun _ => ⟨0 + j, hbegins (harray value hmem)⟩⟩
  · intro fields hnames ih segment hsegment leaf hleaf
    rw [Json.leavesAt] at hleaf
    obtain ⟨inner, hinner, rfl⟩ := List.mem_map.1 hleaf
    obtain ⟨field, hfield, hinner⟩ := mem_fieldLeaves hinner
    obtain ⟨hplain, -, -⟩ := ih field hfield _
      (plainSegment_of_plainName (hnames field hfield)) inner hinner
    refine ⟨⟨?_, hplain.solid, hplain.readable, hplain.scalar⟩, fun _ => ⟨inner.1, rfl⟩, nofun⟩
    intro s hs
    rcases List.mem_cons.1 hs with rfl | hs
    · exact hsegment
    · exact hplain.path s hs

theorem name_of_mem_leavesAt (hsolid : value.Solid) (hread : value.Readable)
    (hsegment : PlainSegment segment)
    (hleaf : leaf ∈ value.leavesAt segment) :
    ∃ first, BeginsAt first leaf ∧ first.name = segment.name := by
  obtain ⟨-, hother, harray⟩ := plainLeaf_leavesAt hsolid hread segment hsegment leaf hleaf
  cases hkind : value.isArray with
  | false => exact ⟨segment, hother hkind, rfl⟩
  | true =>
      obtain ⟨i, hi⟩ := harray hkind
      exact ⟨_, hi, rfl⟩

theorem apart_of_beginsAt {a b : PathSegment} {x y : List PathSegment × Json}
    (hx : BeginsAt a x) (hy : BeginsAt b y) (hne : a ≠ b)
    (h : a.name ≠ b.name ∨ (a.index.isSome = true ∧ b.index.isSome = true)) : Apart x.1 y.1 := by
  obtain ⟨p, hp⟩ := hx
  obtain ⟨q, hq⟩ := hy
  rw [hp, hq, Apart, if_neg hne]
  exact h

/-- The leaves of an object do not meet, when those of each field do not. -/
theorem pairwise_fieldLeaves
    (hsorted : fields.Pairwise (·.1 < ·.1)) (hsolid : ∀ field ∈ fields, field.2.Solid)
    (hname : ∀ field ∈ fields, PlainName field.1) (hread : ∀ field ∈ fields, field.2.Readable)
    (h : ∀ field ∈ fields, (field.2.leavesAt { name := field.1 }).Pairwise
      fun x y => Apart x.1 y.1) :
    (Json.fieldLeaves fields).Pairwise fun x y => Apart x.1 y.1 := by
  induction fields with
  | nil => exact List.Pairwise.nil
  | cons field rest ih =>
      rw [List.pairwise_cons] at hsorted
      rw [List.forall_mem_cons] at hsolid hname hread h
      rw [Json.fieldLeaves, List.pairwise_append]
      refine ⟨h.1, ih hsorted.2 hsolid.2 hname.2 hread.2 h.2, ?_⟩
      intro x hx y hy
      obtain ⟨other, hother, hy⟩ := mem_fieldLeaves hy
      obtain ⟨a, ha, hname_a⟩ := name_of_mem_leavesAt hsolid.1 hread.1
        (plainSegment_of_plainName hname.1) hx
      obtain ⟨b, hb, hname_b⟩ := name_of_mem_leavesAt (hsolid.2 other hother) (hread.2 other hother)
        (plainSegment_of_plainName (hname.2 other hother)) hy
      have hne : a.name ≠ b.name := by
        rw [hname_a, hname_b]
        exact (hsorted.1 other hother).ne
      exact apart_of_beginsAt ha hb (fun heq => hne (heq ▸ rfl)) (Or.inl hne)

/-- The leaves of an array do not meet, when those of each element do not. -/
theorem pairwise_elementLeaves (i : ℕ)
    (hbegins : ∀ (j : ℕ) (value : Json), values[j]? = some value →
      ∀ leaf ∈ value.leavesAt { name := name, index := some (i + j) },
        BeginsAt { name := name, index := some (i + j) } leaf)
    (h : ∀ (j : ℕ) (value : Json), values[j]? = some value →
      (value.leavesAt { name := name, index := some (i + j) }).Pairwise fun x y => Apart x.1 y.1) :
    (Json.elementLeaves name i values).Pairwise fun x y => Apart x.1 y.1 := by
  induction values generalizing i with
  | nil => exact List.Pairwise.nil
  | cons value rest ih =>
      have hshift : ∀ j, i + 1 + j = i + (j + 1) := fun j => by omega
      rw [Json.elementLeaves, List.pairwise_append]
      refine ⟨h 0 value rfl, ih (i + 1) ?_ ?_, ?_⟩
      · intro j other hj
        rw [hshift]
        exact hbegins (j + 1) other hj
      · intro j other hj
        rw [hshift]
        exact h (j + 1) other hj
      · intro x hx y hy
        obtain ⟨j, other, hj, hy⟩ := mem_elementLeaves hy
        rw [hshift] at hy
        refine apart_of_beginsAt (hbegins 0 value rfl x hx) (hbegins (j + 1) other hj y hy) ?_
          (Or.inr ⟨rfl, rfl⟩)
        intro heq
        have := Option.some.inj (congrArg PathSegment.index heq)
        omega

/-- **The paths of two scalars do not meet.** -/
theorem pairwise_apart_leavesAt (h : value.Solid) : value.Readable →
    ∀ segment : PathSegment, PlainSegment segment →
      (value.leavesAt segment).Pairwise fun x y => Apart x.1 y.1 := by
  induction h with
  | array values hne hlen harray hsolid ih =>
      intro hread segment hsegment
      cases hread with
      | array _ hvalues =>
          have hplain : ∀ (j : ℕ) (value : Json), values[j]? = some value →
              PlainSegment { name := segment.name, index := some (0 + j) } := by
            intro j value hj
            refine ⟨hsegment.1, fun i hi => ?_⟩
            have hj' : j < values.length := (List.getElem?_eq_some_iff.1 hj).1
            obtain rfl := Option.some.inj hi
            omega
          refine pairwise_elementLeaves 0 ?_ ?_
          · intro j value hj leaf hleaf
            have hmem := List.mem_of_getElem? hj
            exact (plainLeaf_leavesAt (hsolid value hmem) (hvalues value hmem) _ (hplain j value hj)
              leaf hleaf).2.1 (harray value hmem)
          · intro j value hj
            have hmem := List.mem_of_getElem? hj
            exact ih value hmem (hvalues value hmem) _ (hplain j value hj)
  | object fields hne hsorted hsolid ih =>
      intro hread segment hsegment
      cases hread with
      | object _ hnames hvalues =>
          rw [Json.leavesAt, List.pairwise_map]
          have := pairwise_fieldLeaves hsorted hsolid hnames hvalues fun field hfield =>
            ih field hfield (hvalues field hfield) _
              (plainSegment_of_plainName (hnames field hfield))
          refine this.imp fun {x y} hxy => ?_
          rw [Apart, if_pos rfl]
          exact hxy
  | _ =>
      intro _ segment _
      exact List.pairwise_singleton _ _

/-! ### The fields that the scalars build -/

mutual

/-- The value that the scalars of a value build at a name. -/
def Json.rebuilt (name : String) : Json → RuntimeValue
  | .object fields => .struct (Json.rebuiltFields fields) name
  | .array values => .array (Json.rebuiltElements name values) (name ++ "[]")
  | value => value.scalarValue

/-- The fields that the scalars of an object build. -/
def Json.rebuiltFields : List (String × Json) → List (String × RuntimeValue)
  | [] => []
  | (name, value) :: rest => (name, Json.rebuilt name value) :: Json.rebuiltFields rest

/-- The elements that the scalars of an array build. -/
def Json.rebuiltElements (name : String) : List Json → List RuntimeValue
  | [] => []
  | value :: rest => Json.rebuilt name value :: Json.rebuiltElements name rest

end

/-- A leaf as an entry: its path and its value. -/
def valued (leaf : List PathSegment × Json) : List PathSegment × RuntimeValue :=
  (leaf.1, leaf.2.scalarValue)

/-- Entries below a part of a path are one update there. -/
theorem foldl_assign_below (segment : PathSegment) {entries : List (List PathSegment × RuntimeValue)}
    (hne : entries ≠ []) (hpath : ∀ entry ∈ entries, entry.1 ≠ [])
    (fields : List (String × RuntimeValue)) :
    (entries.map fun entry => (segment :: entry.1, entry.2)).foldl assign fields =
      place segment (fun old =>
        .struct (entries.foldl assign (RuntimeValue.fieldsOr old segment.name).1)
          (RuntimeValue.fieldsOr old segment.name).2) fields := by
  have hone : ∀ (entry : List PathSegment × RuntimeValue) fields, entry.1 ≠ [] →
      assign fields (segment :: entry.1, entry.2) = place segment (fun old =>
        .struct (assign (RuntimeValue.fieldsOr old segment.name).1 entry)
          (RuntimeValue.fieldsOr old segment.name).2) fields := by
    intro entry fields hentry
    obtain ⟨path, value⟩ := entry
    obtain ⟨next, path, rfl⟩ := List.exists_cons_of_ne_nil hentry
    rfl
  induction entries generalizing fields with
  | nil => exact absurd rfl hne
  | cons entry entries ih =>
      rw [List.forall_mem_cons] at hpath
      rw [List.map_cons, List.foldl_cons, hone entry fields hpath.1]
      cases entries with
      | nil => rfl
      | cons next entries =>
          rw [ih (List.cons_ne_nil _ _) hpath.2, place_place]
          rfl

/-- The scalars of a value are one update at its part of the path, and this builds the value where
there was nothing, or the default value of a new element. -/
def Builds (value : Json) (segment : PathSegment) : Prop :=
  ∃ f : Option RuntimeValue → RuntimeValue,
    (∀ fields, ((value.leavesAt segment).map valued).foldl assign fields = place segment f fields) ∧
      f none = value.rebuilt segment.name ∧
      f (some .voidValue) = value.rebuilt segment.name

def Below (fields : List (String × RuntimeValue)) (key : String) : Prop :=
  ∀ entry ∈ fields, entry.1 < key

/-- **Inserting the scalars of an object in order builds the fields**, behind fields with lower
keys. -/
theorem foldl_fieldLeaves (hsorted : fields.Pairwise (·.1 < ·.1))
    (h : ∀ field ∈ fields, Builds field.2 { name := field.1 })
    (before : List (String × RuntimeValue)) (hbefore : ∀ field ∈ fields, Below before field.1) :
    ((Json.fieldLeaves fields).map valued).foldl assign before =
      before ++ Json.rebuiltFields fields := by
  induction fields generalizing before with
  | nil => exact (List.append_nil _).symm
  | cons field rest ih =>
      obtain ⟨name, value⟩ := field
      rw [List.pairwise_cons] at hsorted
      rw [List.forall_mem_cons] at h hbefore
      obtain ⟨f, hf, hnone, -⟩ := h.1
      have hplace : place { name := name } f before = before ++ [(name, value.rebuilt name)] := by
        rw [← hnone]
        exact alterEntry_of_forall_lt f hbefore.1
      rw [Json.fieldLeaves, List.map_append, List.foldl_append, hf, hplace,
        ih hsorted.2 h.2, Json.rebuiltFields, List.append_assoc]
      · rfl
      · intro other hother entry hentry
        rcases List.mem_append.1 hentry with hentry | hentry
        · exact hbefore.2 other hother entry hentry
        · obtain rfl := List.mem_singleton.1 hentry
          exact hsorted.1 other hother

/-- The elements of an array, in order, are one update at its name, and this adds the elements to
those that are there. -/
theorem foldl_elementLeaves {name : String} {values : List Json} (hne : values ≠ []) (i : ℕ)
    (h : ∀ (j : ℕ) (value : Json), values[j]? = some value →
      Builds value { name := name, index := some (i + j) }) :
    ∃ f : Option RuntimeValue → RuntimeValue,
      (∀ fields, ((Json.elementLeaves name i values).map valued).foldl assign fields =
        alterEntry name f fields) ∧
      ∀ old, (RuntimeValue.elementsOr old name).1.length = i →
        f old = .array ((RuntimeValue.elementsOr old name).1 ++ Json.rebuiltElements name values)
          (RuntimeValue.elementsOr old name).2 := by
  induction values generalizing i with
  | nil => exact absurd rfl hne
  | cons value rest ih =>
      obtain ⟨g, hg, -, hvoid⟩ := h 0 value rfl
      rw [Nat.add_zero] at hg hvoid
      -- the update of the first element
      have hfirst : ∀ old, (RuntimeValue.elementsOr old name).1.length = i →
          RuntimeValue.array (alterAt .voidValue i (fun value => g (some value))
            (RuntimeValue.elementsOr old name).1) (RuntimeValue.elementsOr old name).2 =
          .array ((RuntimeValue.elementsOr old name).1 ++ [value.rebuilt name])
            (RuntimeValue.elementsOr old name).2 := by
        rintro old rfl
        rw [alterAt_length, hvoid]
      cases rest with
      | nil =>
          refine ⟨fun old => .array (alterAt .voidValue i (fun value => g (some value))
            (RuntimeValue.elementsOr old name).1) (RuntimeValue.elementsOr old name).2, ?_, hfirst⟩
          intro fields
          rw [Json.elementLeaves, Json.elementLeaves, List.append_nil, hg]
          rfl
      | cons next rest =>
          obtain ⟨f, hf, hbuilds⟩ := ih (List.cons_ne_nil _ _) (i + 1) fun j value hj => by
            have := h (j + 1) value hj
            rwa [Nat.add_comm j 1, ← Nat.add_assoc] at this
          refine ⟨fun old => f (some (.array (alterAt .voidValue i (fun value => g (some value))
            (RuntimeValue.elementsOr old name).1) (RuntimeValue.elementsOr old name).2)), ?_, ?_⟩
          · intro fields
            rw [Json.elementLeaves, List.map_append, List.foldl_append, hg, hf, place,
              alterEntry_alterEntry]
          · intro old hold
            dsimp only
            rw [hfirst old hold, hbuilds]
            · rw [RuntimeValue.elementsOr, Json.rebuiltElements, List.append_assoc]
              rfl
            · rw [RuntimeValue.elementsOr, List.length_append, hold]
              rfl

theorem fieldLeaves_ne_nil (hne : fields ≠ [])
    (h : ∀ field ∈ fields, field.2.leavesAt { name := field.1 } ≠ []) :
    Json.fieldLeaves fields ≠ [] := by
  obtain ⟨field, rest, rfl⟩ := List.exists_cons_of_ne_nil hne
  rw [Json.fieldLeaves]
  exact List.append_ne_nil_of_left_ne_nil (h field (List.mem_cons_self ..)) _

/-- A value without empty containers has a scalar. -/
theorem leavesAt_ne_nil (h : value.Solid) :
    ∀ segment : PathSegment, value.leavesAt segment ≠ [] := by
  induction h with
  | array values hne hlen harray hsolid ih =>
      intro segment
      obtain ⟨value, rest, rfl⟩ := List.exists_cons_of_ne_nil hne
      rw [Json.leavesAt, Json.elementLeaves]
      exact List.append_ne_nil_of_left_ne_nil (ih value (List.mem_cons_self ..) _) _
  | object fields hne hsorted hsolid ih =>
      intro segment
      rw [Json.leavesAt, ne_eq, List.map_eq_nil_iff]
      exact fieldLeaves_ne_nil hne fun field hfield => ih field hfield _
  | _ =>
      intro segment
      exact List.cons_ne_nil _ _

/-- **The scalars of a value build it.** -/
theorem builds (h : value.Solid) : value.Readable →
    ∀ segment : PathSegment, PlainSegment segment → (value.isArray = true → segment.index = none) →
      Builds value segment := by
  induction h with
  | array values hne hlen harray hsolid ih =>
      intro hread segment hsegment hindex
      obtain ⟨name, index⟩ := segment
      obtain rfl : index = none := hindex rfl
      cases hread with
      | array _ hvalues =>
          -- the elements are written one by one under their places
          obtain ⟨f, hf, hbuilds⟩ := @foldl_elementLeaves name values hne 0 fun j value hj => by
            have hmem := List.mem_of_getElem? hj
            have hj' : j < values.length := (List.getElem?_eq_some_iff.1 hj).1
            refine ih value hmem (hvalues value hmem) _ ⟨hsegment.1, fun i hi => ?_⟩ fun harray' => ?_
            · obtain rfl := Option.some.inj hi
              omega
            · rw [harray value hmem] at harray'
              cases harray'
          exact ⟨f, hf, hbuilds none rfl, hbuilds _ rfl⟩
  | object fields hne hsorted hsolid ih =>
      intro hread segment hsegment _
      cases hread with
      | object _ hnames hvalues =>
          -- the fields come out in the order of their names
          have hfields : ((Json.fieldLeaves fields).map valued).foldl assign [] =
              Json.rebuiltFields fields := by
            refine foldl_fieldLeaves hsorted ?_ [] fun _ _ _ hentry => absurd hentry (by simp)
            intro field hfield
            exact ih field hfield (hvalues field hfield) _
              (plainSegment_of_plainName (hnames field hfield)) fun _ => rfl
          have hleaves : ((Json.object fields).leavesAt segment).map valued =
              ((Json.fieldLeaves fields).map valued).map fun entry => (segment :: entry.1, entry.2) := by
            rw [Json.leavesAt, List.map_map, List.map_map]
            rfl
          have hnil : (Json.fieldLeaves fields).map valued ≠ [] := by
            rw [ne_eq, List.map_eq_nil_iff]
            exact fieldLeaves_ne_nil hne fun field hfield =>
              leavesAt_ne_nil (hsolid field hfield) _
          have hpath : ∀ entry ∈ (Json.fieldLeaves fields).map valued, entry.1 ≠ [] := by
            intro entry hentry
            obtain ⟨leaf, hleaf, rfl⟩ := List.mem_map.1 hentry
            obtain ⟨field, hfield, hleaf⟩ := mem_fieldLeaves hleaf
            obtain ⟨first, ⟨rest, hrest⟩, -⟩ := name_of_mem_leavesAt (hsolid field hfield)
              (hvalues field hfield) (plainSegment_of_plainName (hnames field hfield)) hleaf
            change leaf.1 ≠ []
            rw [hrest]
            exact List.cons_ne_nil _ _
          refine ⟨fun old => .struct (((Json.fieldLeaves fields).map valued).foldl assign
            (RuntimeValue.fieldsOr old segment.name).1)
            (RuntimeValue.fieldsOr old segment.name).2, ?_, ?_, ?_⟩
          · intro inner
            rw [hleaves, foldl_assign_below segment hnil hpath]
          · exact congrArg (RuntimeValue.struct · _) hfields
          · exact congrArg (RuntimeValue.struct · _) hfields
  | _ =>
      intro _ segment _ _
      exact ⟨_, fun fields => rfl, rfl, rfl⟩

/-! ### The leaves of what was built -/

theorem leavesAt_rebuiltFields
    (h : ∀ field ∈ fields, (field.2.rebuilt field.1).leavesAt { name := field.1 } =
      (field.2.leavesAt { name := field.1 }).map valued) :
    RuntimeValue.fieldLeaves (Json.rebuiltFields fields) =
      (Json.fieldLeaves fields).map valued := by
  induction fields with
  | nil => rfl
  | cons field rest ih =>
      rw [List.forall_mem_cons] at h
      rw [Json.rebuiltFields, RuntimeValue.fieldLeaves, h.1, ih h.2, Json.fieldLeaves,
        List.map_append]

theorem leavesAt_rebuiltElements (i : ℕ) (h : ∀ (j : ℕ) (value : Json), values[j]? = some value →
      (value.rebuilt name).leavesAt { name := name, index := some (i + j) } =
        (value.leavesAt { name := name, index := some (i + j) }).map valued) :
    RuntimeValue.elementLeaves name i (Json.rebuiltElements name values) =
      (Json.elementLeaves name i values).map valued := by
  induction values generalizing i with
  | nil => rfl
  | cons value rest ih =>
      have hrest := ih (i + 1) fun j other hj => by
        have := h (j + 1) other hj
        rwa [Nat.add_comm j 1, ← Nat.add_assoc] at this
      have hfirst := h 0 value rfl
      rw [Nat.add_zero] at hfirst
      rw [Json.rebuiltElements, RuntimeValue.elementLeaves, hfirst, hrest, Json.elementLeaves,
        List.map_append]

/-- **What is built has exactly the scalars as its leaves.** -/
theorem leavesAt_rebuilt (h : value.Solid) (hread : value.Readable) : ∀ segment : PathSegment,
      (value.rebuilt segment.name).leavesAt segment = (value.leavesAt segment).map valued := by
  refine Json.Solid.readable_induction h hread ?_ ?_ ?_
  · intro value hsolid hread hs segment
    obtain ⟨-, -, hleaf⟩ := readable_scalar hsolid hread hs
    cases value with
    | array values => cases hs
    | object fields => cases hs
    | _ => exact hleaf segment
  · intro values hlen harray ih segment
    exact leavesAt_rebuiltElements 0 fun j value hj =>
      ih value (List.mem_of_getElem? hj) { name := segment.name, index := some (0 + j) }
  · intro fields hnames ih segment
    rw [Json.rebuilt, RuntimeValue.leavesAt, Json.leavesAt,
      leavesAt_rebuiltFields fun field hfield => ih field hfield { name := field.1 },
      List.map_map, List.map_map]
    rfl

/-! ### There and back -/

/-- Assignments that are read give the fields of their entries. -/
theorem parse_of_entries (optionName : String) (entry : String → List PathSegment × RuntimeValue)
    {assignments : List String}
    (h : ∀ a ∈ assignments, parseAssignment optionName a = .ok (entry a)) :
    parseRuntimeFieldAssignments assignments optionName =
      .ok ((assignments.map entry).foldl assign []) := by
  unfold parseRuntimeFieldAssignments
  generalize ([] : List (String × RuntimeValue)) = fields
  induction assignments generalizing fields with
  | nil => rfl
  | cons a rest ih =>
      rw [List.forall_mem_cons] at h
      rw [List.foldlM_cons, h.1, List.map_cons, List.foldl_cons]
      exact ih h.2 _

theorem parseAssignment_assignmentOf (optionName : String)
    (h : PlainLeaf leaf) (hne : leaf.1 ≠ []) :
    parseAssignment optionName (assignmentOf [] leaf) = .ok (valued leaf) := by
  obtain ⟨-, htext, -⟩ := readable_scalar h.solid h.readable h.scalar
  exact parseAssignment_printPath optionName leaf.2.scalarText leaf.1 hne h.path htext

/-- **An object with readable keys and scalars comes back from its assignments.** -/
theorem rebuilds_of_readable (fields : List (String × Json)) (optionName : String)
    (hsolid : (Json.object fields).Solid) (hread : (Json.object fields).Readable) :
    Rebuilds fields optionName := by
  cases hsolid with
  | object _ hne hsorted hvalues =>
  cases hread with
  | object _ hnames hreads =>
  -- the assignments are the printed leaves
  have hflatten : flattenJsonAssignments (.object fields) "" =
      .ok ((Json.fieldLeaves fields).map (assignmentOf [])) := by
    rw [flattenJsonAssignments]
    refine @flattenFields_of [] (fun s hs => by cases hs) fields hnames fun field hfield => ?_
    exact flatten_eq (hvalues field hfield) (hreads field hfield) [] { name := field.1 }
      (fun s hs => by cases hs) (plainSegment_of_plainName (hnames field hfield)) fun _ => rfl
  have hleaf : ∀ leaf ∈ Json.fieldLeaves fields, PlainLeaf leaf ∧ leaf.1 ≠ [] := by
    intro leaf hleaf
    obtain ⟨field, hfield, hleaf⟩ := mem_fieldLeaves hleaf
    have hsegment := plainSegment_of_plainName (hnames field hfield)
    obtain ⟨first, ⟨rest, hrest⟩, -⟩ := name_of_mem_leavesAt (hvalues field hfield)
      (hreads field hfield) hsegment hleaf
    refine ⟨(plainLeaf_leavesAt (hvalues field hfield) (hreads field hfield) _ hsegment leaf
      hleaf).1, ?_⟩
    rw [hrest]
    exact List.cons_ne_nil _ _
  have hapart : (Json.fieldLeaves fields).Pairwise fun x y => Apart x.1 y.1 :=
    pairwise_fieldLeaves hsorted hvalues hnames hreads fun field hfield =>
      pairwise_apart_leavesAt (hvalues field hfield) (hreads field hfield) _
        (plainSegment_of_plainName (hnames field hfield))
  -- each assignment is read as the entry of its leaf
  let entry : String → List PathSegment × RuntimeValue := fun a =>
    (parseAssignment optionName a).toOption.getD ([], .voidValue)
  have hentry : ∀ leaf ∈ Json.fieldLeaves fields,
      parseAssignment optionName (assignmentOf [] leaf) = .ok (valued leaf) := fun leaf hmem =>
    parseAssignment_assignmentOf optionName (hleaf leaf hmem).1 (hleaf leaf hmem).2
  have hentries : ((Json.fieldLeaves fields).map (assignmentOf [])).map entry =
      (Json.fieldLeaves fields).map valued := by
    rw [List.map_map]
    refine List.map_congr_left fun leaf hmem => ?_
    change (parseAssignment optionName (assignmentOf [] leaf)).toOption.getD _ = _
    rw [hentry leaf hmem]
    rfl
  have hbuilt : ((Json.fieldLeaves fields).map valued).foldl assign [] =
      Json.rebuiltFields fields := by
    refine foldl_fieldLeaves hsorted ?_ [] fun _ _ _ hmem => absurd hmem (by simp)
    intro field hfield
    exact builds (hvalues field hfield) (hreads field hfield) _
      (plainSegment_of_plainName (hnames field hfield)) fun _ => rfl
  refine ⟨_, Json.rebuiltFields fields, hflatten, ?_, ?_, ?_, List.length_map _⟩
  · intro reordered hperm
    have hread : ∀ a ∈ reordered, parseAssignment optionName a = .ok (entry a) := by
      intro a ha
      obtain ⟨leaf, hmem, rfl⟩ := List.mem_map.1 (hperm.subset ha)
      have := hentry leaf hmem
      change _ = Except.ok ((parseAssignment optionName (assignmentOf [] leaf)).toOption.getD _)
      rw [this]
      rfl
    have hcomm : ((Json.fieldLeaves fields).map valued).Pairwise (Commuting assign) := by
      rw [List.pairwise_map]
      exact hapart.imp fun hxy => commuting_assign hxy _ _
    have hperm' : ((Json.fieldLeaves fields).map valued).Perm (reordered.map entry) := by
      rw [← hentries]
      exact (hperm.map entry).symm
    rw [parse_of_entries optionName entry hread, ← foldl_perm_of_commuting hperm' hcomm, hbuilt]
  · exact leavesAt_rebuiltFields fun field hfield =>
      leavesAt_rebuilt (hvalues field hfield) (hreads field hfield) { name := field.1 }
  · rw [List.Nodup, List.pairwise_map]
    refine hapart.imp fun {x y} hxy heq => ?_
    exact absurd (heq ▸ hxy) (not_apart_self _)

/-- The object `{"ok": true, "tx": {"outs": [{"value": 5}, {"value": "0x0a"}]}}` comes back. -/
theorem rebuilds_context :
    Rebuilds [("ok", .boolean true),
      ("tx", .object [("outs", .array [.object [("value", .integer 5)],
        .object [("value", .string "0x0a")]])])] "--param" := by
  have hplain : ∀ name ∈ ["ok", "tx", "outs", "value"], PlainName name := by
    unfold PlainName
    decide
  refine rebuilds_of_readable _ _ ?_ ?_
  · refine .object _ (by decide) (by decide) ?_
    simp only [List.forall_mem_cons, List.not_mem_nil, IsEmpty.forall_iff, implies_true, and_true]
    refine ⟨.boolean true, .object _ (by decide) (by simp) ?_⟩
    simp only [List.forall_mem_cons, List.not_mem_nil, IsEmpty.forall_iff, implies_true, and_true]
    refine .array _ (by simp) (by simp) (by simp [Json.isArray]) ?_
    simp only [List.forall_mem_cons, List.not_mem_nil, IsEmpty.forall_iff, implies_true, and_true]
    refine ⟨.object _ (by simp) (by simp) ?_, .object _ (by simp) (by simp) ?_⟩
    · simpa using Json.Solid.integer 5 (by decide) (by decide)
    · simpa using Json.Solid.string "0x0a"
  · refine .object _ ?_ ?_
    · simpa using ⟨hplain "ok" (by decide), hplain "tx" (by decide)⟩
    simp only [List.forall_mem_cons, List.not_mem_nil, IsEmpty.forall_iff, implies_true, and_true]
    refine ⟨.boolean true, .object _ (by simpa using hplain "outs" (by decide)) ?_⟩
    simp only [List.forall_mem_cons, List.not_mem_nil, IsEmpty.forall_iff, implies_true, and_true]
    refine .array _ ?_
    simp only [List.forall_mem_cons, List.not_mem_nil, IsEmpty.forall_iff, implies_true, and_true]
    refine ⟨.object _ (by simpa using hplain "value" (by decide)) ?_,
      .object _ (by simpa using hplain "value" (by decide)) ?_⟩
    · simpa using Json.Readable.integer 5
    · simpa using Json.Readable.string "0x0a" (.fromBytes [0x0a] "hex") rfl fun _ _ h => by cases h

/-- The object `{"a": {"b": 1}, "a.b": 2}`: the second key is the path of the first scalar. -/
def keyThatIsAPath : List (String × Json) :=
  [("a", .object [("b", .integer 1)]), ("a.b", .integer 2)]

/-- **A key that is a path can name the leaf of another scalar**: both scalars are assigned to the
path `a.b`, and one leaf is left for the two. -/
theorem not_rebuilds_keyThatIsAPath :
    (Json.object keyThatIsAPath).Solid ∧ ¬ Rebuilds keyThatIsAPath "--param" := by
  constructor
  · refine .object _ (by simp [keyThatIsAPath]) (by decide) ?_
    simp only [keyThatIsAPath, List.forall_mem_cons, List.not_mem_nil, IsEmpty.forall_iff,
      implies_true, and_true]
    refine ⟨.object _ (by simp) (by simp) ?_, .integer 2 (by decide) (by decide)⟩
    simpa using Json.Solid.integer 1 (by decide) (by decide)
  · rintro ⟨assignments, rebuilt, hflatten, hparse, hleaves, -, -⟩
    have hassignments : flattenJsonAssignments (.object keyThatIsAPath) "" =
        .ok ["a.b=1", "a.b=2"] := by rfl
    obtain rfl := Except.ok.inj (hassignments.symm.trans hflatten)
    have hone : parseRuntimeFieldAssignments ["a.b=1", "a.b=2"] "--param" =
        .ok [("a", .struct [("b", .fromInt 2)] "a")] := by rfl
    obtain rfl := Except.ok.inj (hone.symm.trans (hparse _ (List.Perm.refl _)))
    have hlen := congrArg List.length hleaves
    rw [List.length_map] at hlen
    exact absurd hlen (by decide)

end AtomicProof
