import FlowReport.Assembly.Brackets
import FlowReport.Assembly.Ident
import FlowReport.Path
import FlowReport.Table

/-!
# Debug metadata

The three kinds of metadata nodes that lead from an instruction to a line of source code:
locations, files and compile units. A node writes its kind and, in parentheses, its fields as
`key: value` with commas between them.
-/

namespace FlowReport.Assembly

/-- A place in the source code. -/
structure SourceLocation where
  line : Int
  column : Option Int := none
  deriving DecidableEq, Repr

/-- A source file as the compiler recorded it. -/
structure SourceFile where
  filename : Text
  directory : Text := []
  deriving DecidableEq, Repr

/-- The path of a source file, seen from its directory. -/
def SourceFile.path (f : SourceFile) : Path := (Path.ofText f.directory).child f.filename

/-- A compile unit, by the raw text of its file field. -/
structure CompileUnit where
  file : Option Text
  deriving DecidableEq, Repr

/-- The fields of a node; a piece without a colon is none. -/
def fieldsOf (body : Text) : Table Text :=
  Table.ofList ((splitFields body).filterMap fun piece =>
    (Text.cutAt? ':' piece).map fun (key, value) => (key.trim, value.trim))

/-- The text in the parentheses behind the first `marker`. -/
def argumentsOf? (marker s : Text) : Option Text := do
  let (_, found) ← Text.cutBefore? marker s
  let (_, body) ← Text.cutAt? '(' found
  enclosed? 0 body

/-- A field's text: a quoted one decoded, any other as it is, an empty one absent. -/
def unquoted? (value : Text) : Option Text :=
  let s := value.trim
  if 2 ≤ s.length ∧ s.head? = some '"' ∧ s.getLast? = some '"' then
    some (unescape (s.drop 1).dropLast)
  else if s = [] then none
  else some s

/-- A field's whole number. -/
def number? (value : Text) : Option Int :=
  let s := value.trim
  if s = [] ∨ s.lowerAscii = "null".toList then none else Numeral.literal? s

/-- Reads a file node. -/
def SourceFile.ofNode? (s : Text) : Option SourceFile := do
  let fields := fieldsOf (← argumentsOf? "!DIFile" s)
  let field (key : Text) : Text := ((fields.get? key).bind unquoted?).getD []
  some ⟨field "filename", field "directory"⟩

/-- Reads a location node. Line zero marks code that the compiler made up: no location. -/
def SourceLocation.ofNode? (s : Text) : Option SourceLocation := do
  let fields := fieldsOf (← argumentsOf? "!DILocation" s)
  let field (key : Text) : Option Int := (fields.get? key).bind number?
  let line ← field "line"
  if line = 0 then none else some ⟨line, field "column"⟩

/-- Reads a compile unit node. -/
def CompileUnit.ofNode? (s : Text) : Option CompileUnit := do
  some ⟨(fieldsOf (← argumentsOf? "!DICompileUnit" s)).get? "file"⟩

/-- The text names one of the three kinds of nodes. -/
def namesDebugNode (s : Text) : Bool :=
  Text.contains "!DIFile" s || Text.contains "!DILocation" s || Text.contains "!DICompileUnit" s

end FlowReport.Assembly
