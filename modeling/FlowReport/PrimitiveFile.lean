import FlowReport.World

/-!
# Primitive files

The primitives of a function in a file of their own, named for the function.
-/

namespace FlowReport.PrimitiveFile

/-- The path of a function's primitives. -/
def path (directory : Path) (function : Text) : Path := directory.child (function ++ ".json")

/-- The primitives that a document holds. -/
def ofText (s : Text) : Except Error (List Primitive) :=
  match Json.read s with
  | .error e => .error (.document e)
  | .ok v => (Primitive.listOfJson v).mapError .primitive

/-- Reads the primitives of a function. -/
def load (directory : Path) (function : Text) : Action (List Primitive) := do
  let path := path directory function
  Action.log .info .primitives ("parsing primitives of function " ++ function.quoted)
  let prims ← Action.ofExcept (ofText (← Action.readText path))
  Action.log .debug .primitives
    ("loaded " ++ Numeral.ofNat prims.length ++ " primitives from " ++ path.text)
  return prims

/-- Writes primitives into a file, with the directories above it. -/
def save (path : Path) (prims : List Primitive) : Action Unit := do
  Action.provideDirectories path.parent
  Action.writeText path (Primitive.document prims)

end FlowReport.PrimitiveFile
