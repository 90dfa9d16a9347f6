/-
The import resolver.

A source text may import other files, by a path or by a dotted name under the root of the standard
library.  The resolver puts the text of a file in the place of its first import, between two marker
lines, and keeps a map from the lines of the merged text to files and line numbers.  Files are
recognised by their canonical path.  The walk through the files is an instance of
`AtomicProof/Expansion.lean`.

The row of files that are being resolved does not contain the root file, although its canonical
path is among the files that count as included.  An import that leads back to the root is therefore
taken for a repeated import and not for a circular one.

Main definitions:

* `ImportResolver.FileSystem` — files by canonical path, and what `std::filesystem` and the search
  for the standard library answer;
* `ImportResolver.matchImport`, `ImportResolver.resolveImportTarget` — import lines;
* `ImportResolver.processSourceLines`, `ImportResolver.resolveFile`,
  `ImportResolver.resolveWithMap` — the resolver;
* `ImportResolver.bodyOf`, `ImportResolver.Merged`, `ImportResolver.Exact` — what it is for.

Main results:

* `ImportResolver.resolveWithMap_simulates` — **the resolver is the depth-first expansion of the
  graph of imports**;
* `ImportResolver.resolveWithMap_exact_iff` — **the inputs on which import resolution is exact**.
-/

import AtomicProof.Expansion
import AtomicProof.Hex
import Mathlib.Data.Nat.Basic
import Std.Data.ExtTreeMap

set_option autoImplicit false

namespace AtomicProof

namespace ImportResolver

/-! ### The file system -/

/-- What the resolver asks the system for.  A file is known by its canonical path; the root of the
standard library is the outcome of `findStdlibRoot`. -/
structure FileSystem where
  files : Std.ExtTreeMap String String
  weaklyCanonical : String → String
  currentPath : String
  stdlibRoot : Option String

/-- A path exists when its canonical path is that of a file. -/
def FileSystem.exists (fs : FileSystem) (path : String) : Bool :=
  fs.files.contains (fs.weaklyCanonical path)

def isAbsolute (path : String) : Bool := path.toList.head? == some '/'

/-- `fs::path::parent_path`: the last component goes, and the slashes before it, up to the root. -/
def parentPath (path : String) : String :=
  let above := path.toList.reverse.dropWhile (· ≠ '/')
  let parent := above.dropWhile (· = '/')
  if path.toList.all (· = '/') then path
  else if parent = [] then if above = [] then "" else "/"
  else String.ofList parent.reverse

/-- `fs::path::extension`: the last component from its last dot on, unless it begins with that
dot. -/
def extension (path : String) : String :=
  let filename := (path.toList.reverse.takeWhile (· ≠ '/')).reverse
  let stem := (filename.reverse.dropWhile (· ≠ '.')).drop 1
  if filename = ['.', '.'] || stem = [] then ""
  else String.ofList (filename.drop stem.length)

/-- `operator/` of `fs::path`. -/
def joinPath (dir path : String) : String :=
  if isAbsolute path || dir = "" then path
  else if dir.toList.getLast? = some '/' then dir ++ path
  else dir ++ "/" ++ path

/-! ### Lines -/

/-- `std::getline` over a whole text, with the characters of the line that has been begun. -/
def getLinesFrom (current : List Char) : List Char → List String
  | [] => if current = [] then [] else [String.ofList current.reverse]
  | c :: rest =>
      if c = '\n' then String.ofList current.reverse :: getLinesFrom [] rest
      else getLinesFrom (c :: current) rest

def getLines (text : String) : List String := getLinesFrom [] text.toList

/-- `[A-Za-z_]`. -/
def isNameStart (c : Char) : Bool := c.isAlpha || c = '_'

/-- `[A-Za-z0-9_.]`. -/
def isNameChar (c : Char) : Bool := c.isAlpha || c.isDigit || c = '_' || c = '.'

/-- The part of `kImportRegex` from the target on. -/
def matchTarget : List Char → Option String
  | [] => none
  | c :: rest =>
      if c = '"' then
        match rest.dropWhile (· ≠ '"') with
        | [] => none
        | _ :: tail =>
            if rest.takeWhile (· ≠ '"') ≠ [] && tail.all isSpace then
              some (String.ofList (rest.takeWhile (· ≠ '"')))
            else none
      else if isNameStart c && (rest.dropWhile isNameChar).all isSpace then
        some (String.ofList (c :: rest.takeWhile isNameChar))
      else none

/-- `kImportRegex`: the target of an import line. -/
def matchImport (line : String) : Option String :=
  let start := line.toList.dropWhile isSpace
  if "import".toList.isPrefixOf start then
    match start.drop "import".length with
    | [] => none
    | c :: rest => if isSpace c then matchTarget (rest.dropWhile isSpace) else none
  else none

/-- The canonical path an import stands for, or the message of what is thrown. -/
def resolveImportTarget (fs : FileSystem) (spec currentFileDir : String) : Except String String :=
  if spec.toList.head? = some '.' || spec.toList.contains '/' then
    let path := if extension spec = "" then spec ++ ".ct" else spec
    .ok (fs.weaklyCanonical (if isAbsolute path then path else joinPath currentFileDir path))
  else
    match fs.stdlibRoot with
    | none =>
        .error ("import: cannot locate stdlib root (set APC_STDLIB_PATH or " ++
          "paths.stdlib in user_preferences.json)")
    | some root =>
        let relPath := String.ofList (spec.toList.map fun c => if c = '.' then '/' else c) ++ ".ct"
        let full := joinPath root relPath
        if fs.exists full then .ok (fs.weaklyCanonical full)
        else .error ("import: module '" ++ spec ++ "' not found at " ++ full)

/-! ### The resolver -/

/-- The origin of a line of the merged text. -/
structure SourceLineMapping where
  filename : String
  line : ℕ
  generated : Bool
  deriving DecidableEq, Repr

/-- What the resolver has produced so far. -/
structure Resolution where
  alreadyIncluded : List String
  out : String
  sourceMap : List SourceLineMapping
  sourceContents : Std.ExtTreeMap String String

/-- Why resolving ends without a result: it went too deep, or something was thrown. -/
inductive Failure
  | outOfFuel
  | thrown (message : String)
  deriving DecidableEq, Repr

/-- One line is added to the merged text and to the map. -/
def Resolution.appendMappedLine (st : Resolution) (line filename : String) (sourceLine : ℕ)
    (generated : Bool) : Resolution :=
  { st with
    out := st.out ++ line ++ "\n"
    sourceMap := st.sourceMap ++ [⟨filename, sourceLine, generated⟩] }

/-- The marker line before an imported text. -/
def beginMarker (spec target : String) : String :=
  "# --- begin import " ++ spec ++ " (" ++ target ++ ") ---"

/-- The marker line after an imported text. -/
def endMarker (spec : String) : String := "# --- end import " ++ spec ++ " ---"

/-- What is thrown below an import line is thrown again with the place of that line. -/
def rethrow {α : Type} (errorFilename : String) (lineNo : ℕ) : Except Failure α → Except Failure α
  | .error (.thrown message) =>
      .error (.thrown (errorFilename ++ ":" ++ toString lineNo ++ ": " ++ message))
  | result => result

/-- One line of a source text; `resolveFile` resolves the file of an import. -/
def processLine (fs : FileSystem) (resolveFile : String → Resolution → Except Failure Resolution)
    (mappedFilename importDir errorFilename : String) (st : Resolution) (entry : String × ℕ) :
    Except Failure Resolution :=
  let lineNo := entry.2 + 1
  match matchImport entry.1 with
  | some spec =>
      rethrow errorFilename lineNo <|
        match resolveImportTarget fs spec importDir with
        | .error message => .error (.thrown message)
        | .ok target => do
            let st ← resolveFile target (st.appendMappedLine (beginMarker spec target) "" 0 true)
            pure (st.appendMappedLine (endMarker spec) "" 0 true)
  | none => .ok (st.appendMappedLine entry.1 mappedFilename lineNo false)

def processSourceLines (fs : FileSystem)
    (resolveFile : String → Resolution → Except Failure Resolution)
    (source mappedFilename importDir errorFilename : String) (st : Resolution) :
    Except Failure Resolution :=
  (getLines source).zipIdx.foldlM
    (processLine fs resolveFile mappedFilename importDir errorFilename) st

/-- An imported file, inside of the files of `stack`. -/
def resolveFile (fs : FileSystem) :
    ℕ → List String → String → Resolution → Except Failure Resolution
  | 0, _, _, _ => .error .outOfFuel
  | fuel + 1, stack, absPath, st =>
      if absPath ∈ stack then
        .error (.thrown ("import: circular import detected: " ++
          String.join (stack.map (· ++ " -> ")) ++ absPath))
      else if absPath ∈ st.alreadyIncluded then .ok st
      else
        match fs.files[absPath]? with
        | none => .error (.thrown ("import: cannot open file '" ++ absPath ++ "'"))
        | some raw =>
            processSourceLines fs (resolveFile fs fuel (stack ++ [absPath])) raw absPath
              (parentPath absPath) absPath
              { st with
                alreadyIncluded := st.alreadyIncluded ++ [absPath]
                sourceContents := st.sourceContents.insert absPath raw }

/-- The merged text with its map and the texts it came from. -/
structure ExpandedSource where
  code : String
  sourceMap : List SourceLineMapping
  sourceContents : Std.ExtTreeMap String String

/-- The name of the root file in the map and in messages. -/
def rootFilename (sourceFilePath : String) : String :=
  if sourceFilePath = "" then "<main>" else sourceFilePath

/-- The directory of the imports of the root file. -/
def rootDir (fs : FileSystem) (sourceFilePath : String) : String :=
  let dir := if sourceFilePath = "" then fs.currentPath else parentPath sourceFilePath
  if dir = "" then fs.currentPath else dir

def rootKey (fs : FileSystem) (sourceFilePath : String) : String :=
  if sourceFilePath = "" then "<main>" else fs.weaklyCanonical sourceFilePath

/-- The state in which the root file is read. -/
def initial (fs : FileSystem) (source sourceFilePath : String) : Resolution :=
  ⟨[rootKey fs sourceFilePath], "", [], (∅ : Std.ExtTreeMap String String).insert
    (rootFilename sourceFilePath) source⟩

/-- The resolver, where files may be nested `fuel` deep. -/
def resolveWithMap (fs : FileSystem) (fuel : ℕ) (source sourceFilePath : String) :
    Except Failure ExpandedSource := do
  let st ← processSourceLines fs (resolveFile fs fuel []) source (rootFilename sourceFilePath)
    (rootDir fs sourceFilePath) (rootFilename sourceFilePath) (initial fs source sourceFilePath)
  pure ⟨st.out, st.sourceMap, st.sourceContents⟩

/-! ### What it is for -/

open Expansion

section Graph

variable (fs : FileSystem) (source sourceFilePath : String)

/-- What a line of a file in the directory `dir` means. -/
def itemOf (dir line : String) : Item String String String :=
  match matchImport line with
  | some spec => .reference spec (resolveImportTarget fs spec dir).toOption
  | none => .text line

/-- The lines of a text in the directory `dir`. -/
def itemsOf (dir text : String) : List (Item String String String) :=
  (getLines text).map (itemOf fs dir)

/-- The import graph: the lines of the file with a canonical path, where the root file has the text
that was passed. -/
def bodyOf (file : String) : Option (List (Item String String String)) :=
  if file = rootKey fs sourceFilePath then some (itemsOf fs (rootDir fs sourceFilePath) source)
  else (fs.files[file]?).map (itemsOf fs (parentPath file))

/-- A file that can be reached has an import whose target cannot be found. -/
def Missing : Prop := Broken (bodyOf fs source sourceFilePath) (rootKey fs sourceFilePath)

/-- The files that can be reached have a circular import. -/
def Circular : Prop :=
  ∃ file, Reachable (bodyOf fs source sourceFilePath) (rootKey fs sourceFilePath) file ∧
    Relation.TransGen (Refers (bodyOf fs source sourceFilePath)) file file

/-- A circular import that leads back to the root file. -/
def RootCircular : Prop :=
  Relation.TransGen (Refers (bodyOf fs source sourceFilePath)) (rootKey fs sourceFilePath)
    (rootKey fs sourceFilePath)

/-- The canonical paths of imported files lie on one line. -/
def OneLineTargets : Prop :=
  ∀ file, Reachable (bodyOf fs source sourceFilePath) (rootKey fs sourceFilePath) file →
    ∀ spec target, Item.reference spec (some target) ∈ entriesOf (bodyOf fs source sourceFilePath) file →
      '\n' ∉ target.toList

def eventText : Event String String String → String
  | .line _ _ text => text
  | .opened spec target => beginMarker spec target
  | .closed spec => endMarker spec

/-- The origin of a merged line: its file and its number, and none for a marker. -/
def eventOrigin : Event String String String → SourceLineMapping
  | .line file index _ =>
      ⟨if file = rootKey fs sourceFilePath then rootFilename sourceFilePath else file,
        index + 1, false⟩
  | .opened _ _ => ⟨"", 0, true⟩
  | .closed _ => ⟨"", 0, true⟩

/-- **The merged text is what it should be.**  It consists of lines of files and of markers, the map
has an entry for each, the lines of every file that can be reached stand there once and in order,
and those of an imported file before the lines that follow its import. -/
def Merged (expanded : ExpandedSource) : Prop :=
  ∃ events : List (Event String String String),
    getLines expanded.code = events.map eventText ∧
    expanded.sourceMap = events.map (eventOrigin fs sourceFilePath) ∧
    (∀ file, Reachable (bodyOf fs source sourceFilePath) (rootKey fs sourceFilePath) file →
      linesOf file events = textsOf (entriesOf (bodyOf fs source sourceFilePath) file).zipIdx) ∧
    (∀ file, ¬ Reachable (bodyOf fs source sourceFilePath) (rootKey fs sourceFilePath) file →
      linesOf file events = []) ∧
    ∀ file, Reachable (bodyOf fs source sourceFilePath) (rootKey fs sourceFilePath) file →
      ∀ spec target index, (Item.reference spec (some target), index)
          ∈ (entriesOf (bodyOf fs source sourceFilePath) file).zipIdx →
        ∃ a b, events = a ++ b ∧ linesOf target b = [] ∧
          ∀ line ∈ linesOf file a, line.1 < index

/-- **Import resolution is exact.**  It ends, however deep files may be nested beyond the number of
files; it throws exactly when a file is missing or an import is circular; and otherwise the merged
text is what it should be. -/
def Exact : Prop :=
  ∀ fuel, fs.files.size + 1 < fuel →
    resolveWithMap fs fuel source sourceFilePath ≠ .error .outOfFuel ∧
    ((∃ message, resolveWithMap fs fuel source sourceFilePath = .error (.thrown message)) ↔
      Missing fs source sourceFilePath ∨ Circular fs source sourceFilePath) ∧
    ∀ expanded, resolveWithMap fs fuel source sourceFilePath = .ok expanded →
      Merged fs source sourceFilePath expanded

end Graph

/-! ### The resolver walks the import graph -/

section Simulation

variable {fs : FileSystem} {source sourceFilePath : String}

/-- The lines that have been written, as one text. -/
def textOf (events : List (Event String String String)) : String :=
  events.foldl (fun text event => text ++ eventText event ++ "\n") ""

/-- A state of the resolver shows a state of the walk. -/
structure Shows (fs : FileSystem) (sourceFilePath : String) (st : Resolution)
    (state : State String String String) : Prop where
  included : st.alreadyIncluded = state.visited
  out : st.out = textOf state.events
  sourceMap : st.sourceMap = state.events.map (eventOrigin fs sourceFilePath)
  rootSeen : rootKey fs sourceFilePath ∈ state.visited

/-- An outcome of the resolver shows an outcome of the walk. -/
def ShowsOutcome (fs : FileSystem) (sourceFilePath : String) :
    Except Failure Resolution → Except Stop (State String String String) → Prop
  | .ok st, .ok state => Shows fs sourceFilePath st state
  | .error .outOfFuel, .error .outOfFuel => True
  | .error (.thrown _), .error .fault => True
  | _, _ => False

theorem Shows.append {st : Resolution} {state : State String String String}
    (h : Shows fs sourceFilePath st state) {event : Event String String String}
    {filename : String} {sourceLine : ℕ} {generated : Bool}
    (horigin : eventOrigin fs sourceFilePath event = ⟨filename, sourceLine, generated⟩) :
    Shows fs sourceFilePath (st.appendMappedLine (eventText event) filename sourceLine generated)
      (state.emit event) := by
  refine ⟨h.included, ?_, ?_, h.rootSeen⟩
  · simp only [Resolution.appendMappedLine, State.emit, h.out, textOf, List.foldl_append,
      List.foldl_cons, List.foldl_nil]
  · simp only [Resolution.appendMappedLine, State.emit, h.sourceMap, List.map_append, List.map_cons,
      List.map_nil, horigin]

theorem ShowsOutcome.rethrow {errorFilename : String} {lineNo : ℕ}
    {result : Except Failure Resolution} {outcome : Except Stop (State String String String)}
    (h : ShowsOutcome fs sourceFilePath result outcome) :
    ShowsOutcome fs sourceFilePath (rethrow errorFilename lineNo result) outcome := by
  rcases result with (_ | message) | st
  · exact h
  · rcases outcome with (_ | _) | state
    · exact h.elim
    · trivial
    · exact h.elim
  · exact h

/-- Steps that show one another, one after the other. -/
theorem ShowsOutcome.bind {result : Except Failure Resolution}
    {outcome : Except Stop (State String String String)}
    {f : Resolution → Except Failure Resolution}
    {g : State String String String → Except Stop (State String String String)}
    (h : ShowsOutcome fs sourceFilePath result outcome)
    (hstep : ∀ st state, Shows fs sourceFilePath st state →
      ShowsOutcome fs sourceFilePath (f st) (g state)) :
    ShowsOutcome fs sourceFilePath (result >>= f) (outcome >>= g) := by
  rcases result with (_ | message) | st <;> rcases outcome with (_ | _) | state
  · trivial
  · exact h.elim
  · exact h.elim
  · exact h.elim
  · trivial
  · exact h.elim
  · exact h.elim
  · exact h.elim
  · exact hstep st state h

section Lines

variable {node mappedFilename dir errorFilename : String}
  {enter : String → Resolution → Except Failure Resolution}
  {walk : String → State String String String → Except Stop (State String String String)}
  (henter : ∀ target st state, Shows fs sourceFilePath st state →
    ShowsOutcome fs sourceFilePath (enter target st) (walk target state))
  (hname : mappedFilename = if node = rootKey fs sourceFilePath then rootFilename sourceFilePath
    else node)

include henter hname

/-- A line of a file is an entry of its node. -/
theorem processLine_shows {st : Resolution} {state : State String String String}
    (h : Shows fs sourceFilePath st state) (line : String) (index : ℕ) :
    ShowsOutcome fs sourceFilePath
      (processLine fs enter mappedFilename dir errorFilename st (line, index))
      (item walk node state (itemOf fs dir line, index)) := by
  unfold processLine itemOf
  cases hmatch : matchImport line with
  | none =>
      have horigin : eventOrigin fs sourceFilePath (.line node index line)
          = ⟨mappedFilename, index + 1, false⟩ := by rw [eventOrigin, hname]
      exact h.append horigin
  | some spec =>
      refine ShowsOutcome.rethrow ?_
      cases htarget : resolveImportTarget fs spec dir with
      | error message =>
          simp only [htarget]
          trivial
      | ok target =>
          simp only [htarget]
          have hopened : eventOrigin fs sourceFilePath (.opened spec target) = ⟨"", 0, true⟩ := rfl
          have hclosed : eventOrigin fs sourceFilePath (.closed spec) = ⟨"", 0, true⟩ := rfl
          exact (henter target _ _ (h.append hopened)).bind fun next next' hnext =>
            hnext.append hclosed

/-- The lines of a file are the entries of its node. -/
theorem foldlM_processLine_shows :
    ∀ (lines : List String) (k : ℕ) (st : Resolution) (state : State String String String),
      Shows fs sourceFilePath st state →
      ShowsOutcome fs sourceFilePath
        ((lines.zipIdx k).foldlM (processLine fs enter mappedFilename dir errorFilename) st)
        (items walk node ((lines.map (itemOf fs dir)).zipIdx k) state) := by
  intro lines
  induction lines with
  | nil =>
      intro k st state h
      exact h
  | cons line rest ih =>
      intro k st state h
      rw [List.zipIdx_cons, List.map_cons, List.zipIdx_cons, items, List.foldlM_cons,
        List.foldlM_cons]
      exact (processLine_shows henter hname h line k).bind fun next next' hnext =>
        ih (k + 1) next next' hnext

end Lines

/-- **An imported file is a node of the walk.** -/
theorem resolveFile_shows : ∀ (fuel : ℕ) (stack : List String) (absPath : String) (st : Resolution)
    (state : State String String String), Shows fs sourceFilePath st state →
    ShowsOutcome fs sourceFilePath (resolveFile fs fuel stack absPath st)
      (visit (bodyOf fs source sourceFilePath) fuel stack absPath state) := by
  intro fuel
  induction fuel with
  | zero =>
      intro stack absPath st state _
      trivial
  | succ fuel ih =>
      intro stack absPath st state h
      rw [resolveFile, visit]
      by_cases hstack : absPath ∈ stack
      · rw [if_pos hstack, if_pos hstack]
        trivial
      rw [if_neg hstack, if_neg hstack, h.included]
      by_cases hvisited : absPath ∈ state.visited
      · rw [if_pos hvisited, if_pos hvisited]
        exact h
      rw [if_neg hvisited, if_neg hvisited]
      -- the root was seen, so that this is another file
      have hroot : absPath ≠ rootKey fs sourceFilePath := fun heq => hvisited (heq ▸ h.rootSeen)
      cases hraw : fs.files[absPath]? with
      | none =>
          simp only [bodyOf, if_neg hroot, hraw, Option.map_none]
          trivial
      | some raw =>
          simp only [bodyOf, if_neg hroot, hraw, Option.map_some]
          refine foldlM_processLine_shows (fun t s s' hs => ih _ t s s' hs) (if_neg hroot).symm
            (getLines raw) 0 _ _ ?_
          exact ⟨rfl, h.out, h.sourceMap, List.mem_append_left _ h.rootSeen⟩

/-- **The resolver is the depth-first expansion of the import graph.** -/
theorem resolveWithMap_simulates (fs : FileSystem) (fuel : ℕ) (source sourceFilePath : String) :
    match resolveWithMap fs fuel source sourceFilePath,
      expand (bodyOf fs source sourceFilePath) fuel (rootKey fs sourceFilePath)
        (itemsOf fs (rootDir fs sourceFilePath) source) with
    | .ok expanded, .ok state => expanded.code = textOf state.events ∧
        expanded.sourceMap = state.events.map (eventOrigin fs sourceFilePath)
    | .error .outOfFuel, .error .outOfFuel => True
    | .error (.thrown _), .error .fault => True
    | _, _ => False := by
  have hinitial : Shows fs sourceFilePath (initial fs source sourceFilePath)
      ⟨[rootKey fs sourceFilePath], []⟩ := ⟨rfl, rfl, rfl, List.mem_singleton_self _⟩
  have hshows : ShowsOutcome fs sourceFilePath
      (processSourceLines fs (resolveFile fs fuel []) source (rootFilename sourceFilePath)
        (rootDir fs sourceFilePath) (rootFilename sourceFilePath)
        (initial fs source sourceFilePath))
      (expand (bodyOf fs source sourceFilePath) fuel (rootKey fs sourceFilePath)
        (itemsOf fs (rootDir fs sourceFilePath) source)) :=
    foldlM_processLine_shows (fun t s s' hs => resolveFile_shows fuel [] t s s' hs)
      (if_pos rfl).symm (getLines source) 0 _ _ hinitial
  unfold resolveWithMap
  revert hshows
  rcases processSourceLines _ _ _ _ _ _ _ with (_ | message) | st <;>
    rcases expand _ _ _ _ with (_ | _) | state
  iterate 8 exact id
  · exact fun h => ⟨h.out, h.sourceMap⟩

end Simulation

/-! ### The lines of the merged text -/

section Lines

theorem getLinesFrom_append {line : List Char} (hline : '\n' ∉ line) (current rest : List Char) :
    getLinesFrom current (line ++ '\n' :: rest)
      = String.ofList (current.reverse ++ line) :: getLinesFrom [] rest := by
  induction line generalizing current with
  | nil => simp [getLinesFrom]
  | cons c line ih =>
      rw [List.mem_cons, not_or] at hline
      rw [List.cons_append, getLinesFrom, if_neg (Ne.symm hline.1), ih hline.2]
      simp

/-- Every line break begins another line. -/
theorem length_getLinesFrom_append (text rest : List Char) (current : List Char) :
    (getLinesFrom current (text ++ '\n' :: rest)).length
      = text.count '\n' + 1 + (getLinesFrom [] rest).length := by
  induction text generalizing current with
  | nil =>
      simp [getLinesFrom]
      omega
  | cons c text ih =>
      rw [List.cons_append, getLinesFrom]
      by_cases hc : c = '\n'
      · rw [if_pos hc, List.length_cons, ih, hc, List.count_cons_self]
        omega
      · rw [if_neg hc, ih, List.count_cons_of_ne hc]

/-- There is no line break in a line. -/
theorem not_mem_of_mem_getLinesFrom : ∀ (text current : List Char), '\n' ∉ current →
    ∀ line ∈ getLinesFrom current text, '\n' ∉ line.toList := by
  intro text
  induction text with
  | nil =>
      intro current hcurrent line hline
      rw [getLinesFrom] at hline
      split_ifs at hline with hempty
      · cases hline
      · rw [List.mem_singleton.1 hline]
        simpa using hcurrent
  | cons c text ih =>
      intro current hcurrent line hline
      rw [getLinesFrom] at hline
      by_cases hc : c = '\n'
      · rw [if_pos hc] at hline
        rcases List.mem_cons.1 hline with rfl | hline
        · simpa using hcurrent
        · exact ih [] (List.not_mem_nil) line hline
      · rw [if_neg hc] at hline
        refine ih (c :: current) ?_ line hline
        rw [List.mem_cons, not_or]
        exact ⟨Ne.symm hc, hcurrent⟩

theorem not_mem_of_mem_getLines {text line : String} (h : line ∈ getLines text) :
    '\n' ∉ line.toList :=
  not_mem_of_mem_getLinesFrom _ [] List.not_mem_nil line h

/-- The characters of the merged text. -/
theorem toList_textOf (events : List (Event String String String)) :
    (textOf events).toList = events.flatMap fun event => (eventText event).toList ++ ['\n'] := by
  have h : ∀ (events : List (Event String String String)) (text : String),
      (events.foldl (fun text event => text ++ eventText event ++ "\n") text).toList
        = text.toList ++ events.flatMap fun event => (eventText event).toList ++ ['\n'] := by
    intro events
    induction events with
    | nil => simp
    | cons event events ih =>
        intro text
        rw [List.foldl_cons, ih, List.flatMap_cons, String.toList_append, String.toList_append]
        simp
  rw [textOf, h]
  simp

theorem getLines_textOf {events : List (Event String String String)}
    (h : ∀ event ∈ events, '\n' ∉ (eventText event).toList) :
    getLines (textOf events) = events.map eventText := by
  rw [getLines, toList_textOf]
  induction events with
  | nil => rfl
  | cons event events ih =>
      rw [List.flatMap_cons, List.append_assoc, List.singleton_append,
        getLinesFrom_append (h event List.mem_cons_self), List.map_cons,
        ih fun e he => h e (List.mem_cons_of_mem _ he)]
      simp

theorem length_getLines_textOf (events : List (Event String String String)) :
    (getLines (textOf events)).length
      = (events.map fun event => (eventText event).toList.count '\n' + 1).sum := by
  rw [getLines, toList_textOf]
  induction events with
  | nil => rfl
  | cons event events ih =>
      rw [List.flatMap_cons, List.append_assoc, List.singleton_append,
        length_getLinesFrom_append, List.map_cons, List.sum_cons, ih]

/-- When there are as many lines as events, no event contains a line break. -/
theorem not_mem_of_length_getLines {events : List (Event String String String)}
    (h : (getLines (textOf events)).length = events.length) :
    ∀ event ∈ events, '\n' ∉ (eventText event).toList := by
  rw [length_getLines_textOf] at h
  have hle : ∀ l : List (Event String String String),
      l.length ≤ (l.map fun event => (eventText event).toList.count '\n' + 1).sum := by
    intro l
    induction l with
    | nil => simp
    | cons event l ih =>
        rw [List.length_cons, List.map_cons, List.sum_cons]
        omega
  induction events with
  | nil => simp
  | cons event events ih =>
      rw [List.map_cons, List.sum_cons, List.length_cons] at h
      have hrest := hle events
      intro e he
      rcases List.mem_cons.1 he with rfl | he
      · rw [← List.count_eq_zero]
        omega
      · exact ih (by omega) e he

theorem not_mem_beginMarker {spec target : String} (hspec : '\n' ∉ spec.toList) :
    '\n' ∉ (beginMarker spec target).toList ↔ '\n' ∉ target.toList := by
  have hparts : ∀ start middle last : List Char, '\n' ∉ start → '\n' ∉ middle → '\n' ∉ last →
      ('\n' ∉ start ++ spec.toList ++ middle ++ target.toList ++ last ↔ '\n' ∉ target.toList) := by
    intro start middle last hstart hmiddle hlast
    simp [hstart, hspec, hmiddle, hlast]
  have hlist : (beginMarker spec target).toList = "# --- begin import ".toList ++ spec.toList ++
      " (".toList ++ target.toList ++ ") ---".toList := by
    unfold beginMarker
    simp only [String.toList_append]
  rw [hlist]
  exact hparts _ _ _ (by decide +kernel) (by decide +kernel) (by decide +kernel)

theorem not_mem_endMarker {spec : String} (hspec : '\n' ∉ spec.toList) :
    '\n' ∉ (endMarker spec).toList := by
  have hparts : ∀ start last : List Char, '\n' ∉ start → '\n' ∉ last →
      '\n' ∉ start ++ spec.toList ++ last := by
    intro start last hstart hlast
    simp [hstart, hspec, hlast]
  have hlist : (endMarker spec).toList
      = "# --- end import ".toList ++ spec.toList ++ " ---".toList := by
    unfold endMarker
    simp only [String.toList_append]
  rw [hlist]
  exact hparts _ _ (by decide +kernel) (by decide +kernel)

/-- The target of an import line is a part of that line. -/
theorem mem_of_matchImport {line spec : String} (h : matchImport line = some spec) {c : Char}
    (hc : c ∈ spec.toList) : c ∈ line.toList := by
  have htarget : ∀ cs, matchTarget cs = some spec → c ∈ cs := by
    intro cs hcs
    cases cs with
    | nil => cases hcs
    | cons first rest =>
        have htake : ∀ p, c ∈ rest.takeWhile p → c ∈ rest := fun p hmem =>
          (List.takeWhile_sublist p).mem hmem
        rw [matchTarget] at hcs
        split_ifs at hcs with hquote hname
        · cases hdrop : rest.dropWhile (· ≠ '"') with
          | nil =>
              rw [hdrop] at hcs
              cases hcs
          | cons quote tail =>
              rw [hdrop] at hcs
              simp only at hcs
              split_ifs at hcs
              rw [← Option.some.inj hcs, String.toList_ofList] at hc
              exact List.mem_cons_of_mem _ (htake _ hc)
        · rw [← Option.some.inj hcs, String.toList_ofList, List.mem_cons] at hc
          rcases hc with rfl | hc
          · exact List.mem_cons_self
          · exact List.mem_cons_of_mem _ (htake _ hc)
  unfold matchImport at h
  simp only at h
  split_ifs at h with himport
  cases hrest : (line.toList.dropWhile isSpace).drop "import".length with
  | nil => simp [hrest] at h
  | cons first rest =>
      simp only [hrest] at h
      split_ifs at h
      have hmem := htarget _ h
      have hdrop : c ∈ (line.toList.dropWhile isSpace).drop "import".length := by
        rw [hrest]
        exact List.mem_cons_of_mem _ ((List.dropWhile_sublist _).mem hmem)
      exact (List.dropWhile_sublist _).mem (List.mem_of_mem_drop hdrop)

end Lines

/-! ### Exactness -/

section Exactness

variable {fs : FileSystem} {source sourceFilePath : String}

theorem bodyOf_rootKey : bodyOf fs source sourceFilePath (rootKey fs sourceFilePath)
    = some (itemsOf fs (rootDir fs sourceFilePath) source) := if_pos rfl

theorem mem_of_bodyOf {file : String} (h : bodyOf fs source sourceFilePath file ≠ none) :
    file ∈ rootKey fs sourceFilePath :: fs.files.keys := by
  rw [bodyOf] at h
  split_ifs at h with hroot
  · exact hroot ▸ List.mem_cons_self
  · refine List.mem_cons_of_mem _ (Std.ExtTreeMap.mem_keys.2 ?_)
    rw [← Std.ExtTreeMap.isSome_getElem?_iff_mem]
    simpa [Option.isSome_iff_ne_none] using h

/-- Where the entries of a file come from. -/
theorem exists_line_of_mem_entriesOf {file : String} {entry : Item String String String}
    (h : entry ∈ entriesOf (bodyOf fs source sourceFilePath) file) :
    ∃ dir line, '\n' ∉ line.toList ∧ entry = itemOf fs dir line := by
  have hitems : ∀ dir text, entry ∈ itemsOf fs dir text →
      ∃ dir line, '\n' ∉ line.toList ∧ entry = itemOf fs dir line := by
    intro dir text hmem
    obtain ⟨line, hline, rfl⟩ := List.mem_map.1 hmem
    exact ⟨dir, line, not_mem_of_mem_getLines hline, rfl⟩
  cases hbody : bodyOf fs source sourceFilePath file with
  | none => simp [entriesOf, hbody] at h
  | some items =>
      rw [mem_entriesOf hbody] at h
      rw [bodyOf] at hbody
      split_ifs at hbody with hroot
      · exact hitems _ _ (Option.some.inj hbody ▸ h)
      · obtain ⟨text, _, rfl⟩ := Option.map_eq_some_iff.1 hbody
        exact hitems _ _ h

theorem not_mem_of_text {file text : String}
    (h : Item.text text ∈ entriesOf (bodyOf fs source sourceFilePath) file) :
    '\n' ∉ text.toList := by
  obtain ⟨dir, line, hline, heq⟩ := exists_line_of_mem_entriesOf h
  unfold itemOf at heq
  cases hmatch : matchImport line with
  | none =>
      rw [hmatch] at heq
      exact (Item.text.inj heq) ▸ hline
  | some spec =>
      rw [hmatch] at heq
      cases heq

/-- The mark of a reference is the target of an import line. -/
theorem not_mem_of_reference {file spec : String} {target : Option String}
    (h : Item.reference spec target ∈ entriesOf (bodyOf fs source sourceFilePath) file) :
    '\n' ∉ spec.toList := by
  obtain ⟨dir, line, hline, heq⟩ := exists_line_of_mem_entriesOf h
  unfold itemOf at heq
  cases hmatch : matchImport line with
  | none =>
      rw [hmatch] at heq
      cases heq
  | some other =>
      rw [hmatch] at heq
      obtain ⟨rfl, -⟩ := Item.reference.inj heq
      exact fun hmem => hline (mem_of_matchImport hmatch hmem)

variable {fuel : ℕ} {state : State String String String}

/-- The events of an expansion are texts of one line each when the paths of the targets are. -/
theorem not_mem_eventText
    (h : expand (bodyOf fs source sourceFilePath) fuel (rootKey fs sourceFilePath)
      (itemsOf fs (rootDir fs sourceFilePath) source) = .ok state) :
    (∀ event ∈ state.events, '\n' ∉ (eventText event).toList) ↔
      OneLineTargets fs source sourceFilePath := by
  have hopened : ∀ spec target, Event.opened spec target ∈ state.events →
      '\n' ∉ spec.toList := by
    intro spec target hmem
    obtain ⟨file, _, hentry⟩ := (expand_opened_iff bodyOf_rootKey h).1 hmem
    exact not_mem_of_reference hentry
  constructor
  · intro hall file hfile spec target hentry
    have hmem := (expand_opened_iff bodyOf_rootKey h).2 ⟨file, hfile, hentry⟩
    exact (not_mem_beginMarker (hopened spec target hmem)).1 (hall _ hmem)
  · intro htargets event hmem
    cases event with
    | line file index text =>
        -- a line of a file is a text entry of its body
        have hlines : (index, text) ∈ linesOf file state.events :=
          List.mem_filterMap.2 ⟨_, hmem, if_pos rfl⟩
        have hfile : Reachable (bodyOf fs source sourceFilePath) (rootKey fs sourceFilePath) file := by
          by_contra hnot
          rw [expand_lines_of_not_reachable bodyOf_rootKey h hnot] at hlines
          cases hlines
        rw [expand_lines bodyOf_rootKey h hfile] at hlines
        obtain ⟨⟨entry, i⟩, hentry, heq⟩ := List.mem_filterMap.1 hlines
        cases entry with
        | text other =>
            obtain ⟨-, rfl⟩ := Prod.mk.inj (Option.some.inj heq)
            exact not_mem_of_text (List.fst_mem_of_mem_zipIdx hentry)
        | reference mark target => cases heq
    | opened spec target =>
        obtain ⟨file, hfile, hentry⟩ := (expand_opened_iff bodyOf_rootKey h).1 hmem
        exact (not_mem_beginMarker (hopened spec target hmem)).2
          (htargets file hfile spec target hentry)
    | closed spec =>
        obtain ⟨target, htarget⟩ := expand_closed h hmem
        exact not_mem_endMarker (hopened spec target htarget)

/-- The merged text of an expansion without a cycle through the root is right exactly when the paths
of the targets lie on one line each. -/
theorem merged_iff
    (h : expand (bodyOf fs source sourceFilePath) fuel (rootKey fs sourceFilePath)
      (itemsOf fs (rootDir fs sourceFilePath) source) = .ok state)
    (hroot : ¬ RootCircular fs source sourceFilePath) {expanded : ExpandedSource}
    (hcode : expanded.code = textOf state.events)
    (hmap : expanded.sourceMap = state.events.map (eventOrigin fs sourceFilePath)) :
    Merged fs source sourceFilePath expanded ↔ OneLineTargets fs source sourceFilePath := by
  rw [← not_mem_eventText h]
  constructor
  · rintro ⟨events, hlines, hevents, -⟩
    refine not_mem_of_length_getLines ?_
    have hlength := congrArg List.length (hmap.symm.trans hevents)
    rw [List.length_map, List.length_map] at hlength
    rw [← hcode, hlines, List.length_map, hlength]
  · intro hall
    refine ⟨state.events, by rw [hcode, getLines_textOf hall], hmap,
      fun file hfile => expand_lines bodyOf_rootKey h hfile,
      fun file hfile => expand_lines_of_not_reachable bodyOf_rootKey h hfile, ?_⟩
    intro file hfile spec target index hmem
    refine expand_before bodyOf_rootKey h hfile hmem ?_
    -- an import of the root would close a cycle
    rintro rfl
    exact hroot (.tail' hfile ⟨spec, List.fst_mem_of_mem_zipIdx hmem⟩)

theorem expand_bodyOf_iff (hfuel : fs.files.size + 1 < fuel) :
    (∃ state, expand (bodyOf fs source sourceFilePath) fuel (rootKey fs sourceFilePath)
      (itemsOf fs (rootDir fs sourceFilePath) source) = .ok state) ↔
      ¬ Missing fs source sourceFilePath ∧
        ¬ CyclePastRoot (bodyOf fs source sourceFilePath) (rootKey fs sourceFilePath) := by
  refine expand_ok_iff (fun file h => mem_of_bodyOf h) ?_ bodyOf_rootKey
  rw [List.length_cons, Std.ExtTreeMap.length_keys]
  exact hfuel

/-- What stops the expansion is thrown. -/
theorem resolveWithMap_of_bad (hfuel : fs.files.size + 1 < fuel)
    (hbad : Missing fs source sourceFilePath ∨
      CyclePastRoot (bodyOf fs source sourceFilePath) (rootKey fs sourceFilePath)) :
    ∃ message, resolveWithMap fs fuel source sourceFilePath = .error (.thrown message) := by
  have hno := mt (expand_bodyOf_iff hfuel).1 (not_and_or.2 (hbad.imp not_not.2 not_not.2))
  have hfuel' : (rootKey fs sourceFilePath :: fs.files.keys).length < fuel := by
    rw [List.length_cons, Std.ExtTreeMap.length_keys]
    exact hfuel
  have hends : expand (bodyOf fs source sourceFilePath) fuel (rootKey fs sourceFilePath)
      (itemsOf fs (rootDir fs sourceFilePath) source) ≠ .error .outOfFuel :=
    expand_ne_outOfFuel (fun file h => mem_of_bodyOf h) hfuel' _
  have hsim := resolveWithMap_simulates fs fuel source sourceFilePath
  cases hexpand : expand (bodyOf fs source sourceFilePath) fuel (rootKey fs sourceFilePath)
      (itemsOf fs (rootDir fs sourceFilePath) source) with
  | ok state => exact absurd ⟨state, hexpand⟩ hno
  | error stop =>
      rw [hexpand] at hsim
      cases stop with
      | outOfFuel => exact absurd hexpand hends
      | fault =>
          rcases hrun : resolveWithMap fs fuel source sourceFilePath with (_ | message) | expanded
          · rw [hrun] at hsim
            exact hsim.elim
          · exact ⟨message, rfl⟩
          · rw [hrun] at hsim
            exact hsim.elim

/-- What goes through is returned. -/
theorem resolveWithMap_of_good (hfuel : fs.files.size + 1 < fuel)
    (hmissing : ¬ Missing fs source sourceFilePath)
    (hcycle : ¬ CyclePastRoot (bodyOf fs source sourceFilePath) (rootKey fs sourceFilePath)) :
    ∃ expanded state, expand (bodyOf fs source sourceFilePath) fuel (rootKey fs sourceFilePath)
        (itemsOf fs (rootDir fs sourceFilePath) source) = .ok state ∧
      resolveWithMap fs fuel source sourceFilePath = .ok expanded ∧
      expanded.code = textOf state.events ∧
      expanded.sourceMap = state.events.map (eventOrigin fs sourceFilePath) := by
  obtain ⟨state, hexpand⟩ := (expand_bodyOf_iff hfuel).2 ⟨hmissing, hcycle⟩
  have hsim := resolveWithMap_simulates fs fuel source sourceFilePath
  rw [hexpand] at hsim
  rcases hrun : resolveWithMap fs fuel source sourceFilePath with (_ | message) | expanded
  · rw [hrun] at hsim
    exact hsim.elim
  · rw [hrun] at hsim
    exact hsim.elim
  · rw [hrun] at hsim
    exact ⟨expanded, state, hexpand, rfl, hsim.1, hsim.2⟩

/-- **Import resolution is exact unless an import leads back to the root file unnoticed, or the path
of an imported file contains a line break.**  A missing file, or a circular import past the root,
stops it in any case. -/
theorem resolveWithMap_exact_iff (fs : FileSystem) (source sourceFilePath : String) :
    Exact fs source sourceFilePath ↔
      (Missing fs source sourceFilePath ∨
        CyclePastRoot (bodyOf fs source sourceFilePath) (rootKey fs sourceFilePath)) ∨
      (¬ RootCircular fs source sourceFilePath ∧ OneLineTargets fs source sourceFilePath) := by
  have hcircular : Circular fs source sourceFilePath ↔
      CyclePastRoot (bodyOf fs source sourceFilePath) (rootKey fs sourceFilePath) ∨
        RootCircular fs source sourceFilePath := cyclic_iff
  by_cases hbad : Missing fs source sourceFilePath ∨
      CyclePastRoot (bodyOf fs source sourceFilePath) (rootKey fs sourceFilePath)
  · refine ⟨fun _ => Or.inl hbad, fun _ fuel hfuel => ?_⟩
    obtain ⟨message, hthrown⟩ := resolveWithMap_of_bad hfuel hbad
    refine ⟨by simp [hthrown], ⟨fun _ => ?_, fun _ => ⟨message, hthrown⟩⟩, by simp [hthrown]⟩
    rcases hbad with h | h
    · exact Or.inl h
    · exact Or.inr (hcircular.2 (Or.inl h))
  rw [or_iff_right hbad]
  rw [not_or] at hbad
  constructor
  · intro hexact
    obtain ⟨expanded, state, hexpand, hok, hcode, hmap⟩ :=
      resolveWithMap_of_good (Nat.lt_succ_self (fs.files.size + 1)) hbad.1 hbad.2
    obtain ⟨-, hthrows, hmerged⟩ := hexact _ (Nat.lt_succ_self (fs.files.size + 1))
    have hroot : ¬ RootCircular fs source sourceFilePath := by
      intro hroot
      obtain ⟨message, hthrown⟩ := hthrows.2 (Or.inr (hcircular.2 (Or.inr hroot)))
      rw [hok] at hthrown
      cases hthrown
    exact ⟨hroot, (merged_iff hexpand hroot hcode hmap).1 (hmerged expanded hok)⟩
  · rintro ⟨hroot, htargets⟩ fuel hfuel
    obtain ⟨expanded, state, hexpand, hok, hcode, hmap⟩ := resolveWithMap_of_good hfuel hbad.1 hbad.2
    refine ⟨by simp [hok], ⟨by simp [hok], ?_⟩, ?_⟩
    · rintro (h | h)
      · exact absurd h hbad.1
      · exact absurd (hcircular.1 h) (not_or.2 ⟨hbad.2, hroot⟩)
    · intro other hother
      rw [hok] at hother
      obtain rfl := Except.ok.inj hother
      exact (merged_iff hexpand hroot hcode hmap).2 htargets

/-- A root file that imports itself is accepted, although its import is circular. -/
theorem not_exact_of_self_import :
    ¬ Exact ⟨(∅ : Std.ExtTreeMap String String).insert "/main.ct" "import \"/main.ct\"\n", id, "/",
      none⟩ "import \"/main.ct\"\n" "/main.ct" := by
  intro h
  obtain ⟨-, hthrows, -⟩ := h 3 (by decide +kernel)
  have hrefers : Refers (bodyOf ⟨(∅ : Std.ExtTreeMap String String).insert "/main.ct"
      "import \"/main.ct\"\n", id, "/", none⟩ "import \"/main.ct\"\n" "/main.ct") "/main.ct"
      "/main.ct" := ⟨"/main.ct", by decide +kernel⟩
  obtain ⟨message, hmessage⟩ := hthrows.2 (Or.inr ⟨_, .refl, .single hrefers⟩)
  have hok : (resolveWithMap ⟨(∅ : Std.ExtTreeMap String String).insert "/main.ct"
      "import \"/main.ct\"\n", id, "/", none⟩ 3 "import \"/main.ct\"\n" "/main.ct").isOk = true := by
    decide +kernel
  rw [hmessage] at hok
  cases hok

end Exactness

end ImportResolver

end AtomicProof
