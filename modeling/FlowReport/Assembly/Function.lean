import FlowReport.Assembly.Block

/-!
# Function definitions

A definition is a header, which may run over several lines and ends with an opening brace, a
body, and a line that holds only the closing brace. Its text is kept as it was written.
-/

namespace FlowReport.Assembly

/-- A function definition. -/
structure Function where
  name : Text
  header : List Text
  body : List Text
  closing : Text
  blocks : List Block := []
  dbg : Option Text := none
  deriving DecidableEq, Repr

/-- Why a module was not read. -/
inductive ReadError where
  | openHeader (module : Text)
  | openBody (module : Text)
  | namelessFunction (header : Text)
  | numeral (error : NumeralError)
  deriving DecidableEq, Repr

namespace Function

/-- The lines of a function. -/
def lines (f : Function) : List Text := f.header ++ f.body ++ [f.closing]

/-- The text of a function. -/
def text (f : Function) : Text := Text.join ['\n'] f.lines

/-- The first block of that name. -/
def block? (f : Function) (name : Text) : Option Block := f.blocks.find? (·.name = name)

/-- The header on one line. -/
def headerText (header : List Text) : Text := Text.join [' '] (header.map Text.trim)

/-- The identifier behind the first `@` that has one with an opening parenthesis behind it,
and the text behind that parenthesis. -/
def callee? : Text → Option (Ident × Text)
  | [] => none
  | c :: s =>
    let here : Option (Ident × Text) := do
      let r ← Text.dropPrefix? ['@'] (c :: s)
      let (ident, r) ← Ident.read? r
      let r ← Text.dropPrefix? ['('] (Text.dropBlank r)
      some (ident, r)
    here.orElse fun _ => callee? s

/-- The parameters in the text behind the opening parenthesis. -/
def parameters (s : Text) : List Text := splitFields ((enclosed? 0 s).getD s.dropLast)

/-- The name at the end of a parameter. -/
def parameterName? : Text → Option Ident
  | [] => none
  | c :: s =>
    let here : Option Ident := do
      let r ← Text.dropPrefix? ['%'] (c :: s)
      let (ident, r) ← Ident.read? r
      if Text.dropBlank r = [] then some ident else none
    here.orElse fun _ => parameterName? s

/-- The parameter takes a slot: it is not the ellipsis and has no name, or a number for one. -/
def takesSlot (parameter : Text) : Bool :=
  parameter ≠ "...".toList && (parameterName? parameter).all Ident.isNumber

/-- The number of slots that the parameters take. -/
def slotCount (parameters : List Text) : Nat := parameters.countP takesSlot

/-- Reads a function from its lines. -/
def ofLines (header body : List Text) (closing : Text) : Except ReadError Function :=
  let head := headerText header
  match callee? head with
  | none => .error (.namelessFunction head.trim)
  | some (ident, rest) =>
    match Block.ofBody (slotCount (parameters rest)) header.length body with
    | .error e => .error (.numeral e)
    | .ok blocks =>
      .ok { name := ident.name, header, body, closing, blocks, dbg := debugRef? head }

end Function

end FlowReport.Assembly
