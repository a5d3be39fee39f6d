import FlowReport.Highlight
import FlowReport.Report.Basic
import FlowReport.Report.Pane

/-!
# The pages of a report

Each wanted function with a body has a page for every step of its analysis. A page is written
only after all that can stop it is known: which lines to highlight, and what the decompiler makes
of the primitives so far.
-/

namespace FlowReport.Report

open Assembly

/-- What a template of the report makes of fields. -/
def render (r : Report) (name : Text) (fields : Table Json) : Except Error WideText :=
  match r.templates with
  | none => .error .notInitialized
  | some templates => templates.render name fields

/-- Fills in a template of the report. -/
def fill (r : Report) (name : Text) (fields : Table Json) : Action WideText :=
  Action.ofExcept (r.render name fields)

/-- Writes a file of the report. -/
def write (r : Report) (name : Text) (content : WideText) : Action Unit := do
  let path := r.output.child name
  Action.log .info .report ("creating file " ++ path.text.quoted)
  Action.writeWide path content

/-- A number as a field. -/
def number (n : Nat) : Json := .int n

/-- What a page shows, with the primitive that is being merged. -/
def describe (function : Text) (page : Page Primitive) : WideText :=
  let start : Text := "Function " ++ function ++ ", " ++ page.description ++ "."
  match page.active with
  | none => start
  | some prim =>
    let kind : WideText := if prim.kind = [] then Text.wide ['?'] else prim.kind
    let nodes := List.intercalate (Text.wide ", ") prim.nodes
    start.wide ++ Text.wide " Primitive " ++ kind ++ Text.wide " of nodes " ++ nodes ++
      Text.wide "."

/-- What the graph of a page shows. -/
def describeGraph (function : Text) (page : Page Primitive) : Text :=
  let start : Text := "Control flow graph of function " ++ function
  match page.subStep with
  | .initial => start ++ "."
  | _ => start ++ ", " ++ page.description ++ "."

/-- What the decompiled code of a page is made of. -/
def describeDecompiled (page : Page Primitive) : Text :=
  "Decompiled using " ++ Numeral.ofNat page.recovered.length ++ " recovered primitives."

/-- The fields of an overview. -/
def overviewFields (r : Report) (function : Text) (page : Page Primitive) (count : Nat)
    (hasCode : Bool) : Table Json := [
  ("func_name", .ofText function), ("ll_name", .ofText r.assemblyName),
  ("cur_page", number page.number), ("npages", number count), ("step", number page.step),
  ("sub_step", .ofText page.subStep.letter), ("desc", .ofText page.description),
  ("styles_html", .ofText (Style.options r.style Style.names)),
  ("pages_html", .ofText (Markup.pagination function page.number count)),
  ("frames_html", .ofText (Markup.frames function page.number hasCode))]

/-- The fields of a pane that shows a text. -/
def codeFields (r : Report) (function : Text) (description : WideText) (code : Text) :
    Table Json := [
  ("func_name", .ofText function), ("style", .ofText r.style), ("desc", .str description),
  ("code_html", .ofText code)]

/-- The fields of the pane with the control flow graph. -/
def graphFields (function : Text) (page : Page Primitive) (graph : Text) : Table Json := [
  ("func_name", .ofText function), ("step", number page.step),
  ("sub_step", .ofText page.subStep.letter), ("desc", .ofText (describeGraph function page)),
  ("graph_html", .ofText graph)]

/-- Writes the overview of a page. -/
def writeOverview (r : Report) (function : Text) (page : Page Primitive) (count : Nat)
    (hasCode : Bool) : Action Unit := do
  let content ← r.fill "overview" (r.overviewFields function page count hasCode)
  r.write (Pane.fileName function .overview page.number) content

/-- Writes a pane that shows a text, under the template and the language of the pane's name. -/
def writeCode (r : Report) (function : Text) (pane : Pane) (page : Nat) (source : Text)
    (lines : List LineRange) (description : WideText) : Action Unit := do
  let code ← CodeTable.highlighted source pane.word r.style lines
  let content ← r.fill pane.word (r.codeFields function description code)
  r.write (pane.fileName function page) content

/-- The graph of a page as markup: the drawn image, copied, or the graph, laid out, or neither. -/
def placeGraph (r : Report) (function : Text) (page : Page Primitive) : Action Text := do
  let drawing := Pane.drawingName function page.step page.subStep
  let source := r.graphs.child drawing
  let graph := source.withSuffix ".dot"
  let name := Pane.imageName function page.number
  let target := (r.output.child "img").child name
  let made := Markup.image name (describeGraph function page)
  if ← Action.isFile source then
    Action.log .info .report ("creating file " ++ target.text.quoted)
    Action.copyFile source target
    return made
  else if ← Action.isFile graph then
    Action.log .info .report ("creating file " ++ target.text.quoted)
    Toolchain.layout r.config graph target
    return made
  else
    Action.log .warning .report ("missing control flow graph " ++ source.text.quoted)
    return Markup.noImage drawing

/-- Writes the pane with the control flow graph. -/
def writeGraph (r : Report) (function : Text) (page : Page Primitive) : Action Unit := do
  let graph ← r.placeGraph function page
  let content ← r.fill Pane.graph.word (graphFields function page graph)
  r.write (Pane.fileName function .graph page.number) content

/-- The lines of a page to highlight, in the assembly and in the source code of a function. -/
def highlights (f : Function) (debug : Option Function) (page : Page Primitive) :
    Except Error (List LineRange × List LineRange) :=
  match page.active with
  | none => .ok ([], [])
  | some prim => do
    let assembly ← Highlight.assembly f prim.nodes
    match debug with
    | none => return (assembly, [])
    | some g => return (assembly, ← Highlight.source g prim.nodes)

/-- Writes the files of a page that come before the graph, with the lines to highlight in the assembly
and in the source code. -/
def writeFront (r : Report) (f : Function) (code : Option Text) (count : Nat)
    (page : Page Primitive) (lines : List LineRange × List LineRange) : Action Unit := do
  r.writeOverview f.name page count code.isSome
  if let some source := code then
    r.writeCode f.name .code page.number source lines.2 (describe f.name page)
  r.writeCode f.name .assembly page.number f.text lines.1 (describe f.name page)

/-- Writes the files of a page. -/
def writePage (r : Report) (f : Function) (code : Option Text) (count : Nat)
    (page : Page Primitive) (lines : List LineRange × List LineRange) (decompiled : Text) :
    Action Unit := do
  r.writeFront f code count page lines
  r.writeGraph f.name page
  r.writeCode f.name .decompiled page.number decompiled [] (describeDecompiled page)

/-- Makes a page of a function. -/
def explorePage (r : Report) (f : Function) (debug : Option Function) (code : Option Text)
    (count : Nat) (page : Page Primitive) : Action Unit := do
  let lines ← Action.ofExcept (highlights f debug page)
  let decompiled ← r.decompile f.name page.recovered
  r.writePage f code count page lines decompiled

/-- The function as it is in the module that the source code belongs to, if there is any. -/
def debugFunction (r : Report) (f : Function) (code : Option Text) :
    Except Error (Option Function) :=
  match code with
  | none => .ok none
  | some _ => some <$> r.sourceModule.function f.name

/-- Writes the pages of a function. -/
def exploreFunction (r : Report) (f : Function) (code : Option Text) : Action Unit := do
  let prims ← PrimitiveFile.load r.graphs f.name
  let debug ← Action.ofExcept (r.debugFunction f code)
  (Pagination.pages prims).forM (r.explorePage f debug code (Pagination.count prims))

/-- Writes the list of functions. -/
def writeIndex (r : Report) (functions : List Text) : Action Unit := do
  let content ← r.fill "index" [
    ("ll_name", .ofText r.assemblyName), ("funcs_html", .ofText (Markup.index functions))]
  r.write "index.html" content

/-- The source code of the module, if there is any. -/
def readSource (r : Report) : Action (Option Text) := do
  match ← Input.sourcePath? r.path r.sourceModule with
  | none => return none
  | some path =>
    Action.log .info .report ("reading file " ++ path.text.quoted)
    return some (← Action.readLenient path)

/-- Writes the pages of the wanted functions and the list of those that have some. -/
def explore (r : Report) (names : List Text) : Action (List Text) := do
  if r.templates.isNone then throw .notInitialized
  let code ← r.readSource
  let functions := (← r.selected names).filter fun f => !f.blocks.isEmpty
  functions.forM fun f => r.exploreFunction f code
  let done := functions.map (·.name)
  r.writeIndex done
  return done

end FlowReport.Report
