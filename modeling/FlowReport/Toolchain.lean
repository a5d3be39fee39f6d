import FlowReport.Config
import FlowReport.PrimitiveFile

/-!
# Programs

The calls of the programs that a report is made with: one draws the control flow graphs of an
assembly file, one recovers the primitives of a graph, one decompiles a function as far as its
primitives are recovered, and one lays a graph out as an image. A program that cannot be started
or that fails stops the report.
-/

namespace FlowReport.Toolchain

/-- Calls the program that the first word of a command names, in a directory of its own if one is
given. What the program writes is there before it ends, also if it fails. -/
def call (config : Config) (command : List Text) (directory : Option Path) :
    Action (Option Outcome) := do
  let w ← get
  let env := config.environment w.env
  let staged := directory.map fun d => w.tree.filesBelow d.names
  let call : Call := { command, env, directory, staged, earlier := w.calls.length }
  set { w with calls := w.calls ++ [call] }
  if command.isEmpty then throw .noSuchItem
  match w.respond call with
  | none => return none
  | some outcome =>
    outcome.writes.forM fun (path, node) => Action.provide path node
    return some outcome

/-- Runs a program and returns its output. -/
def run (config : Config) (command : List Text) (directory : Option Path := none) :
    Action Text := do
  Action.log .debug .programs ("running: " ++ commandLine command)
  match ← call config command directory with
  | none => throw (.tool (.cannotStart command))
  | some outcome =>
    if outcome.status = 0 then return outcome.output
    let complaint := outcome.complaint.trim
    if complaint ≠ [] then
      Action.log .error .programs (command.headD [] ++ ": " ++ complaint)
    throw (.tool (.failed command outcome.status complaint))

/-- The directory in which the decompiler looks for the primitives of an assembly file. -/
def graphsName (assemblyName : Text) : Text := (Path.ofText assemblyName).stem ++ "_graphs"

/-- Decompiles a function, given the primitives that are recovered. The decompiler works in a
directory that holds the assembly and the primitives and nothing else. -/
def decompile (config : Config) (assemblyName assembly function : Text)
    (prims : List Primitive) : Action Text :=
  Action.withDirectory fun directory => do
    Action.writeText (directory.child assemblyName) assembly
    let graphs := directory.child (graphsName assemblyName)
    PrimitiveFile.save (PrimitiveFile.path graphs function) prims
    run config [config.decompiler, "-funcs", function, assemblyName] (some directory)

/-- Draws the control flow graphs of an assembly file. -/
def extract (config : Config) (assemblyPath : Text) (force : Bool) : Action Unit := do
  Action.log .info .programs ("extracting control flow graphs of " ++ assemblyPath.quoted)
  let forced : List Text := if force then ["-f"] else []
  let _ ← run config ([config.extractor] ++ forced ++ ["-img".toList, assemblyPath])

/-- Recovers the primitives of a control flow graph. -/
def recover (config : Config) (graph prims : Path) : Action Unit := do
  Action.log .info .programs ("recovering control flow primitives of " ++ graph.text)
  let _ ← run config
    [config.recoverer, "-steps", "-img", "-indent", "-o", prims.text, graph.text]

/-- Lays a control flow graph out as an image. -/
def layout (config : Config) (graph image : Path) : Action Unit := do
  Action.provideDirectories image.parent
  let _ ← run config [config.layouter, "-Tpng", "-o", image.text, graph.text]

end FlowReport.Toolchain
