import FlowReport.Error
import FlowReport.Text.Lines

/-!
# Modules

The lines of a module are cut into chunks: function definitions, the definitions that matter
here, and everything else. A chunk takes its own lines and leaves no state behind, so chunks
are read one by one and put into the module in their order. At the end each instruction gets
the location that its debug reference leads to, wherever in the text that was defined.
-/

namespace FlowReport.Assembly

/-- A module. -/
structure Module where
  name : Text
  text : Text := []
  funcs : List Function := []
  sourceFilename : Option Text := none
  files : Table SourceFile := []
  locations : Table SourceLocation := []
  units : Table CompileUnit := []
  named : Table (List Text) := []
  deriving DecidableEq, Repr

/-- A part of a module's text. The lines of an unclosed definition run to the end. -/
inductive Chunk where
  | other (line : Text)
  | define (header body : List Text) (closing : Text)
  | openHeader (lines : List Text)
  | openBody (lines : List Text)
  | sourceFilename (name line : Text)
  | named (key : Text) (refs : List Text) (line : Text)
  | node (key content : Text) (lines : List Text)
  deriving DecidableEq, Repr

/-- The items before the first one that passes the test, that one, and those behind it. -/
def cutWhere? {α : Type} (p : α → Bool) : List α → Option (List α × α × List α)
  | [] => none
  | a :: rest =>
    if p a then some ([], a, rest)
    else (cutWhere? p rest).map fun (before, found, after) => (a :: before, found, after)

theorem eq_of_cutWhere? {α : Type} {p : α → Bool} {l before after : List α} {a : α}
    (h : cutWhere? p l = some (before, a, after)) : l = before ++ a :: after := by
  fun_induction cutWhere? p l generalizing before with
  | case1 => simp at h
  | case2 b rest hb => simp_all
  | case3 b rest hb ih =>
    obtain ⟨⟨x, y, z⟩, hxyz, hx⟩ := Option.map_eq_some_iff.1 h
    simp only [Prod.mk.injEq] at hx
    obtain ⟨rfl, rfl, rfl⟩ := hx
    simp [ih hxyz]

namespace Chunk

/-- The lines of a chunk. -/
def lines : Chunk → List Text
  | other line => [line]
  | define header body closing => header ++ body ++ [closing]
  | openHeader ls => ls
  | openBody ls => ls
  | sourceFilename _ line => [line]
  | named _ _ line => [line]
  | node _ _ ls => ls

/-- The name in a line that gives the source file's name. -/
def sourceFilename? (line : Text) : Option Text := do
  let r ← Text.dropPrefix? "source_filename" line
  let r ← Text.dropPrefix? ['='] (Text.dropBlank r)
  let r ← Text.dropPrefix? ['"'] (Text.dropBlank r)
  if r.getLast? = some '"' then some (unescape r.dropLast) else none

/-- The name and the references of a line that defines named metadata. -/
def named? (line : Text) : Option (Text × List Text) := do
  let r ← Text.dropPrefix? ['!'] line
  match r.takeWhile isBare with
  | [] => none
  | key =>
    let r ← Text.dropPrefix? ['='] (Text.dropBlank (r.dropWhile isBare))
    let r ← Text.dropPrefix? "!\x7b" (Text.dropBlank r)
    if r.getLast? = some '}' then
      some (key, ((Text.split ',' r.dropLast).map Text.trim).filter (· ≠ []))
    else none

/-- The key and the right-hand side of a line that defines a metadata node. -/
def node? (line : Text) : Option (Text × Text) := do
  let (key, r) ← metadataRef? line
  let r ← Text.dropPrefix? ['='] (Text.dropBlank r)
  some (key, r.trim)

/-- The line ends a function's header. -/
def endsHeader (line : Text) : Bool := line.dropBlankEnd.getLast? = some '{'

/-- The line closes a function's body. -/
def closesBody (line : Text) : Bool := line.trim = ['}']

/-- The balance that a metadata line adds. -/
def weight (line : Text) : Int := parenBalance line.trim

/-- The chunk at the head of a text, and the lines behind it. -/
def next (line : Text) (rest : List Text) : Chunk × List Text :=
  let s := line.trim
  if s = [] ∨ s.head? = some ';' then (other line, rest)
  else if (Text.dropPrefix? "define " s).isSome then
    match cutWhere? endsHeader (line :: rest) with
    | none => (openHeader (line :: rest), [])
    | some (before, last, after) =>
      match cutWhere? closesBody after with
      | none => (openBody (line :: rest), [])
      | some (body, closing, after) => (define (before ++ [last]) body closing, after)
  else
    match sourceFilename? s with
    | some name => (sourceFilename name line, rest)
    | none =>
      match named? s with
      | some (key, refs) => (named key refs line, rest)
      | none =>
        match node? s with
        | none => (other line, rest)
        | some (key, content) =>
          if namesDebugNode content then
            let more := takeOpen weight (parenBalance content) rest
            (node key (Text.join [' '] (content :: more.1.map Text.trim)) (line :: more.1), more.2)
          else (other line, rest)

/-- A chunk and the lines behind it are the lines that were there. -/
theorem lines_next (line : Text) (rest : List Text) :
    (next line rest).1.lines ++ (next line rest).2 = line :: rest := by
  unfold next
  extract_lets s
  split
  · rfl
  split
  · split
    · simp [lines]
    · rename_i h
      have h := eq_of_cutWhere? h
      split
      · simp [lines]
      · rename_i h'
        have h' := eq_of_cutWhere? h'
        simp [lines, h, h']
  split
  · rfl
  split
  · rfl
  split
  · rfl
  split
  · simp [lines, takeOpen_append]
  · rfl

theorem lines_ne_nil (line : Text) (rest : List Text) : (next line rest).1.lines ≠ [] := by
  unfold next
  extract_lets s
  split
  · simp [lines]
  split
  · split
    · simp [lines]
    · split <;> simp [lines]
  repeat' split
  all_goals simp [lines]

theorem length_next_lt (line : Text) (rest : List Text) :
    (next line rest).2.length < (line :: rest).length := by
  have h := congrArg List.length (lines_next line rest)
  have := List.length_pos_iff.2 (lines_ne_nil line rest)
  simp only [List.length_append] at h
  omega

/-- The chunks of a text's lines. -/
def ofLines : List Text → List Chunk
  | [] => []
  | line :: rest => (next line rest).1 :: ofLines (next line rest).2
termination_by ls => ls.length
decreasing_by exact length_next_lt line rest

end Chunk

namespace Module

/-- The first function of that name. -/
def func? (m : Module) (name : Text) : Option Function := m.funcs.find? (·.name = name)

/-- The first function of that name, or the error that there is none. -/
def function (m : Module) (name : Text) : Except Error Function :=
  match m.func? name with
  | some f => .ok f
  | none => .error (.noFunction name m.name)

/-- The source file of the first compile unit that has a recorded one. -/
def sourceFile? (m : Module) : Option SourceFile :=
  ((m.named.get? "llvm.dbg.cu").getD []).findSome? fun ref => do
    let unit ← m.units.get? ref
    m.files.get? (unit.file.getD [])

/-- Puts a metadata node into the tables. The first kind that its text names decides. -/
def addNode (m : Module) (key content : Text) : Module :=
  if Text.contains "!DILocation" content then
    match SourceLocation.ofNode? content with
    | some loc => { m with locations := m.locations.set key loc }
    | none => m
  else if Text.contains "!DIFile" content then
    match SourceFile.ofNode? content with
    | some file => { m with files := m.files.set key file }
    | none => m
  else
    match CompileUnit.ofNode? content with
    | some unit => { m with units := m.units.set key unit }
    | none => m

/-- Puts a chunk into the module. -/
def add (m : Module) : Chunk → Except ReadError Module
  | .other _ => .ok m
  | .openHeader _ => .error (.openHeader m.name)
  | .openBody _ => .error (.openBody m.name)
  | .define header body closing =>
    (Function.ofLines header body closing).map fun f => { m with funcs := m.funcs ++ [f] }
  | .sourceFilename name _ => .ok { m with sourceFilename := some name }
  | .named key refs _ => .ok { m with named := m.named.set key refs }
  | .node key content _ => .ok (m.addNode key content)

/-- The instruction with the location that its debug reference leads to. -/
def locate (m : Module) (i : Instruction) : Instruction :=
  { i with location := i.dbg.bind m.locations.get? }

/-- The block with all its instructions located. -/
def locateBlock (m : Module) (b : Block) : Block := { b with insts := b.insts.map m.locate }

/-- The function with all its instructions located. -/
def locateFunction (m : Module) (f : Function) : Function :=
  { f with blocks := f.blocks.map m.locateBlock }

/-- The module with all instructions located. -/
def resolved (m : Module) : Module := { m with funcs := m.funcs.map m.locateFunction }

/-- Reads a module from its text. -/
def ofText (text : Text) (name : Text := "stdin") : Except ReadError Module :=
  ((Chunk.ofLines text.lines).foldlM add { name, text }).map resolved

end Module

end FlowReport.Assembly
