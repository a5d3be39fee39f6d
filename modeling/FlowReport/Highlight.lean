import FlowReport.Assembly.Module
import FlowReport.LineRange

/-!
# Highlights

The lines to highlight for the blocks of a primitive: those of the function's own text, found by
the text of each block, and those of the source code, which the locations of the instructions
give.
-/

namespace FlowReport

open Assembly

namespace Highlight

/-- The block of a function under a name. -/
def findBlock (f : Function) (name : WideText) : Except Error Block :=
  match name.text?.bind f.block? with
  | some b => .ok b
  | none => .error (.noBlock name f.name)

/-- The lines of a block within its function. -/
def blockRange (f : Function) (b : Block) : Except Error LineRange :=
  match LineRange.locate? f.text b.text with
  | some r => .ok r
  | none => .error (.notInFunction b.name f.name)

/-- The lines of the nodes within the function, one range for each node. -/
def assembly (f : Function) (nodes : List WideText) : Except Error (List LineRange) :=
  nodes.mapM fun name => do blockRange f (← findBlock f name)

/-- The source lines of the instructions of a block that have a location. -/
def blockSource (b : Block) : List LineRange :=
  b.insts.filterMap fun i => i.location.map fun loc => ⟨loc.line, loc.line⟩

/-- The source lines of the nodes. -/
def source (f : Function) (nodes : List WideText) : Except Error (List LineRange) := do
  let blocks ← nodes.mapM (findBlock f)
  .ok (blocks.flatMap blockSource)

end Highlight

end FlowReport
