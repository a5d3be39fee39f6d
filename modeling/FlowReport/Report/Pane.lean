import FlowReport.Page.Markup
import FlowReport.Pagination

/-!
# Panes

The files of a page. A page of a function has an overview and a file for each of its panes; the
name of a file is made of the function's name, the pane and the number of the page.
-/

namespace FlowReport

/-- A file of a page. -/
inductive Pane where
  | overview
  | code
  | assembly
  | graph
  | decompiled
  deriving DecidableEq, Repr

namespace Pane

/-- The word for a pane in file names; an overview has none. -/
def word : Pane → Text
  | overview => []
  | code => "c"
  | assembly => "llvm"
  | graph => "cfa"
  | decompiled => "go"

/-- The name of the file of a pane. -/
def fileName (function : Text) (pane : Pane) (page : Nat) : Text :=
  match pane with
  | overview => function ++ "_" ++ Numeral.padded 4 page ++ ".html"
  | pane => function ++ "_" ++ pane.word ++ "_" ++ Numeral.padded 4 page ++ ".html"

/-- The name of the image on a page. -/
def imageName (function : Text) (page : Nat) : Text :=
  function ++ "_cfa_" ++ Numeral.padded 4 page ++ ".png"

/-- The name of the drawn graph that a page shows. -/
def drawingName (function : Text) (step : Nat) (subStep : SubStep) : Text :=
  if step = 0 then function ++ ".png"
  else function ++ "_" ++ Numeral.padded 4 step ++ subStep.letter ++ ".png"

/-- The panes of a page, with or without source code. -/
def shown (hasCode : Bool) : List Pane :=
  (if hasCode then [code] else []) ++ [assembly, graph, decompiled]

end Pane

namespace Markup

/-- The frame that shows a pane. -/
def frame (function : Text) (page : Nat) (pane : Pane) : Text :=
  "\t\t<iframe src=\"" ++ safe (pane.fileName function page) ++ "\"></iframe>"

/-- The frames of a page. -/
def frames (function : Text) (page : Nat) (hasCode : Bool) : Text :=
  Text.join ['\n'] ((Pane.shown hasCode).map (frame function page))

/-- A link to a page of a function. -/
def pageLink (function : Text) (page : Nat) (label : Text) : Text :=
  "\t\t<a href=\"" ++ safe (Pane.fileName function .overview page) ++ "\">" ++ label ++ "</a>"

/-- A step through the pages, to `page` if it is there. -/
def stepLink (function : Text) (page : Option Nat) (label : Text) : Text :=
  match page with
  | some page => pageLink function page label
  | none => "\t\t<span class=\"disabled\">" ++ label ++ "</span>"

/-- The number of a page, a link unless it is the current one. -/
def numberLink (function : Text) (current page : Nat) : Text :=
  if page = current then "\t\t<span class=\"current\">" ++ Numeral.ofNat page ++ "</span>"
  else pageLink function page (Numeral.ofNat page)

/-- The links from a page to the others. -/
def pagination (function : Text) (current count : Nat) : Text :=
  let back := if 1 < current then some (current - 1) else none
  let on := if current < count then some (current + 1) else none
  Text.join ['\n'] ([stepLink function back "&laquo;"] ++
    (List.range count).map (fun k => numberLink function current (k + 1)) ++
    [stepLink function on "&raquo;"])

/-- The entry of a function in the list of functions. -/
def indexEntry (function : Text) : Text :=
  "\t\t<li><a href=\"" ++ safe (Pane.fileName function .overview 1) ++ "\">" ++ safe function ++
    "</a></li>"

/-- The list of functions. -/
def index (functions : List Text) : Text := Text.join ['\n'] (functions.map indexEntry)

/-- An image of a graph. -/
def image (name description : Text) : Text :=
  "<img src=\"img/" ++ safe name ++ "\" alt=\"" ++ safe description ++ "\">"

/-- What stands in the place of an image that is not there. -/
def noImage (name : Text) : Text :=
  "<p class=\"missing\">No control flow graph image (" ++ safe name ++ ").</p>"

end Markup

end FlowReport
