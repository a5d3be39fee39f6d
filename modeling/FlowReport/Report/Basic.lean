import FlowReport.Page.CodeTable
import FlowReport.Page.Template
import FlowReport.Report.Input
import FlowReport.Toolchain

/-!
# Reports

A report is made about one input. Its pages go into a directory of their own beside the input;
the control flow graphs and the primitives are read from another one. Before the pages come the
directory, the templates and the style sheets.
-/

namespace FlowReport

open Assembly

/-- A report and what it is made from. -/
structure Report where
  path : Text
  assembly : Module
  debug : Option Module := none
  style : Text
  config : Config := {}
  templates : Option Templates := none

namespace Report

/-- The name of the assembly file. -/
def assemblyName (r : Report) : Text := Input.fileName r.path

/-- The directory of the pages. -/
def output (r : Report) : Path := Input.companion r.path "_explore"

/-- The directory of the control flow graphs and the primitives. -/
def graphs (r : Report) : Path := Input.companion r.path "_graphs"

/-- The module that the source code belongs to. -/
def sourceModule (r : Report) : Module := r.debug.getD r.assembly

/-- A report about a module that was read, in a style that has to be named. -/
def about (path : Text) (m : Module) (style : Option Text) (config : Config) :
    Action Report := do
  let debug ← Input.readDebugModule path
  match style with
  | none => throw .noStyle
  | some name => return { path, assembly := m, debug, style := ← Style.resolve name, config }

/-- Makes the directory of the pages, in the place of an old one if that is forced. -/
def makeOutput (r : Report) (force : Bool) : Action Unit := do
  if force then
    if ← Action.isThere r.output then Action.removeTree r.output
  Action.log .info .report ("creating " ++ r.output.text.quoted)
  Action.makeDirectory r.output
  Action.makeDirectory (r.output.child "img")

/-- Writes the files that every report holds. -/
def writeAssets (r : Report) : Action Unit := do
  let directory := r.output.child "inc"
  Action.log .info .report ("creating " ++ directory.text.quoted)
  Action.provideDirectories (directory.child "css")
  Action.provideDirectories (directory.child "js")
  Action.writeText (directory.child "css/explore.css") Source.styleSheet
  Action.writeText (directory.child "js/style.js") Source.styleScript
  let _ ← Style.writeSheets (directory.child "css") Style.names

/-- Prepares a report for its pages. -/
def init (r : Report) (force : Bool) : Action Report := do
  r.makeOutput force
  r.writeAssets
  return { r with templates := some Templates.shipped }

/-- The names in a list that no function of the module has, in order and each once. -/
def undefinedNames (r : Report) (names : List Text) : List Text :=
  let missing := names.filter fun name => (r.assembly.func? name).isNone
  dedup (missing.mergeSort Text.precedes)
where
  /-- Drops repetitions of neighbours. -/
  dedup : List Text → List Text
    | a :: b :: rest => if a = b then dedup (b :: rest) else a :: dedup (b :: rest)
    | rest => rest

/-- The function is among the names; no names stand for all. -/
def isWanted (names : List Text) (f : Function) : Bool := names.isEmpty || names.contains f.name

/-- Notes a function that is left out. -/
def noteSkipped (f : Function) : Action Unit :=
  Action.log .debug .report ("skipping function " ++ f.name.quoted)

/-- Notes a name that no function has. -/
def noteUndefined (r : Report) (name : Text) : Action Unit :=
  Action.log .warning .report
    ("function " ++ name.quoted ++ " not defined in " ++ r.path.quoted)

/-- The functions of the module that are wanted. -/
def selected (r : Report) (names : List Text) : Action (List Function) := do
  (r.assembly.funcs.filter fun f => !isWanted names f).forM noteSkipped
  (r.undefinedNames names).forM r.noteUndefined
  return r.assembly.funcs.filter (isWanted names)

/-- Recovers the primitives of a function whose graph is there. -/
def recover (r : Report) (f : Function) : Action Unit := do
  let graph := r.graphs.child (f.name ++ ".dot")
  if ← Action.isFile graph then
    Toolchain.recover r.config graph (PrimitiveFile.path r.graphs f.name)
  else
    Action.log .warning .report ("no control flow graph for function " ++ f.name.quoted)

/-- Draws the control flow graphs and recovers the primitives of the wanted functions. -/
def generate (r : Report) (names : List Text) (force : Bool) : Action Unit := do
  if r.path = Input.standard then throw .standardInput
  Toolchain.extract r.config r.path force
  (← r.selected names).forM r.recover

/-- Decompiles a function, given the primitives that are recovered. -/
def decompile (r : Report) (function : Text) (prims : List Primitive) : Action Text :=
  Toolchain.decompile r.config r.assemblyName r.assembly.text function prims

end Report

end FlowReport
