import FlowReport.Proofs.PageFiles
import FlowReport.Proofs.Paging
import FlowReport.Proofs.Records
import FlowReport.Proofs.ReportRuns

/-!
# The files of a report

A run that succeeds makes the list of functions and, for each wanted function that has a body, the
files of all its pages, and it changes no other file. Which pages a function has and which of them
have an image is read off the graphs as they were before the run, since no step changes them.
-/

namespace FlowReport.Report

open Assembly FileTree FlowReport.Action World

variable {w₀ w : World} {r : Report} {f : Function} {code : Option Text} {names : List Text}

/-- Which primitives are read is a matter of the file. -/
theorem Loads.of_read {function : Text} {prims : List Primitive} (h : Loads w₀ r function prims)
    (same : ∀ content, w₀.tree.read w₀.directory (PrimitiveFile.path r.graphs function) = .ok content →
      w.tree.read w.directory (PrimitiveFile.path r.graphs function) = .ok content) :
    Loads w r function prims := by
  obtain ⟨named, bytes, text, there, made⟩ := PrimitiveFile.load_iff.1 h
  exact PrimitiveFile.load_iff.2 ⟨named, bytes, text, same bytes there, made⟩

/-- Making the pages does not change which primitives are read. -/
theorem Grounded.loads (start : Grounded w₀ r w₀) (now : Grounded w₀ r w) {function : Text}
    (plain : '/' ∉ function) {prims : List Primitive} :
    Loads w r function prims ↔ Loads w₀ r function prims := by
  have unbroken : '/' ∉ function ++ ".json".toList := by
    rw [List.mem_append, not_or]
    exact ⟨plain, by decide⟩
  have long : 2 < (function ++ ".json".toList).length := by
    rw [List.length_append, show ".json".toList.length = 5 from rfl]
    omega
  have same := start.read_graphs now unbroken long
  exact ⟨fun h => h.of_read fun content => (same content).1,
    fun h => h.of_read fun content => (same content).2⟩

/-- The files of the pages up to a number. -/
def PagesFile (w₀ : World) (r : Report) (function : Text) (hasCode : Bool)
    (prims : List Primitive) (last : Nat) (a : Address) : Prop :=
  ∃ n, 1 ≤ n ∧ n ≤ last ∧ PageFile w₀ r function hasCode (Pagination.page prims n) a

/-- What is made for a file of the pages up to a number by a run of the function that starts in the
world `v`. -/
def PagesContent (w₀ : World) (r : Report) (f : Function) (debug : Option Function)
    (code : Option Text) (prims : List Primitive) (last : Nat) (v : World) (a : Address)
    (bytes : Bytes) : Prop :=
  ∃ n u, 1 ≤ n ∧ n ≤ last ∧ ComesToPage r f debug code prims (Pagination.page prims n) v u ∧
    PageContent w₀ r f debug code (Pagination.count prims) (Pagination.page prims n) u a bytes

/-- The files of a function: those of all its pages. -/
def FunctionFile (w₀ : World) (r : Report) (function : Text) (hasCode : Bool) (a : Address) : Prop :=
  ∃ prims, Loads w₀ r function prims ∧
    PagesFile w₀ r function hasCode prims (2 * prims.length + 1) a

/-- What is made for a file of a function by a run of the function that starts in the world `v`. -/
def FunctionContent (w₀ : World) (r : Report) (code : Option Text) (f : Function) (v : World)
    (a : Address) (bytes : Bytes) : Prop :=
  ∃ prims debug, Loads w₀ r f.name prims ∧ r.debugFunction f code = .ok debug ∧
    PagesContent w₀ r f debug code prims (2 * prims.length + 1) v a bytes

section Modest

variable (modest : w₀.Modest r.config.layouter) (straight : "..".toList ∉ w₀.temporary)

include modest straight

/-- All that a function does leaves the graphs as they are. -/
theorem preserves_exploreFunction_grounded (plain : '/' ∉ f.name) :
    Preserves (Grounded w₀ r) (r.exploreFunction f code) :=
  preserves_exploreFunction_of (stable_grounded w₀ r)
    fun _ _ _ _ => preserves_explorePage_grounded modest straight plain

/-- A page is come to with the graphs as they were. -/
theorem ComesToPage.grounded {debug : Option Function} {prims : List Primitive}
    {page : Page Primitive} {v : World} (h : ComesToPage r f debug code prims page v w)
    (plain : '/' ∉ f.name) (now : Grounded w₀ r v) : Grounded w₀ r w := by
  obtain ⟨start, loaded, reached⟩ := h
  have entered := Ensures.of_preserves (preserves_load (stable_grounded w₀ r)) _ _ _ now loaded
  exact reached.keeps (fun _ _ => preserves_explorePage_grounded modest straight plain) entered

/-- A function is come to with the graphs as they were. -/
theorem ComesToFunction.grounded (h : ComesToFunction w₀ r names code f w)
    (plain : ∀ g ∈ r.written names, '/' ∉ g.name) (ground : Grounded w₀ r w₀) : Grounded w₀ r w := by
  obtain ⟨-, w₁, start, source, selected, reached⟩ := h
  have stable := stable_grounded w₀ r
  have read := Ensures.of_preserves (preserves_readSource stable) _ _ _ ground source
  have chosen := Ensures.of_preserves (preserves_selected stable names) _ _ _ read selected
  exact reached.keeps
    (fun g member => preserves_exploreFunction_grounded modest straight (plain g member)) chosen

end Modest

section Tame

variable (tame : w₀.Tame r.config.layouter) (straight : "..".toList ∉ w₀.temporary)
  (start : Grounded w₀ r w₀) (plain : '/' ∉ f.name) (named : f.name ≠ [])

include tame straight start plain named

/-- The first pages write their files. -/
theorem ensures_pages_files {prims : List Primitive} {debug : Option Function} {last : Nat}
    {v : World} (loaded : perform (PrimitiveFile.load r.graphs f.name) v = (.ok prims, w))
    (now : Grounded w₀ r w) (inside : last ≤ 2 * prims.length + 1) :
    Ensures (· = w) (((Pagination.pages prims).take last).forM
      (r.explorePage f debug code (Pagination.count prims))) fun _ w' =>
        Writes w (PagesFile w₀ r f.name code.isSome prims last)
          (PagesContent w₀ r f debug code prims last v) w' := by
  have grounded : ∀ page u, Reaches (r.explorePage f debug code (Pagination.count prims)) w
      ((Pagination.pages prims).take last) page u → Grounded w₀ r u := fun page u reached =>
    reached.keeps (fun _ _ => preserves_explorePage_grounded tame.modest straight plain) now
  refine (ensures_forM_writes fun page u reached => ensures_explorePage_files tame start straight
    plain named (grounded page u reached)).mono (fun _ h => h) ?_
  intro _ w' wrote
  refine wrote.congr ?_ ?_
  · intro a
    constructor
    · rintro ⟨n, first, before, file⟩
      exact ⟨_, (Pagination.mem_take_pages inside).2 ⟨n, first, before, rfl⟩, file⟩
    · rintro ⟨page, member, file⟩
      obtain ⟨n, first, before, rfl⟩ := (Pagination.mem_take_pages inside).1 member
      exact ⟨n, first, before, file⟩
  · rintro a bytes ⟨page, u, reached, content⟩
    obtain ⟨n, first, before, rfl⟩ := (Pagination.mem_take_pages inside).1 reached.mem
    have all := reached.append ((Pagination.pages prims).drop last)
    rw [List.take_append_drop] at all
    exact ⟨n, u, first, before, ⟨w, loaded, all⟩, content⟩

/-- The run of a function that succeeds writes the files of the function. -/
theorem ensures_exploreFunction_files (now : Grounded w₀ r w) :
    Ensures (· = w) (r.exploreFunction f code) fun _ w' => (∃ prims, Loads w₀ r f.name prims) ∧
      Writes w (FunctionFile w₀ r f.name code.isSome) (FunctionContent w₀ r code f w) w' := by
  intro v u w' same ran
  obtain rfl : w = v := same.symm
  obtain ⟨prims, debug, w₁, loaded, found, ran⟩ := perform_exploreFunction_iff.1 ran
  have loads := (start.loads now plain).1 ⟨_, loaded⟩
  have still := Ensures.of_preserves (preserves_load (stable_still w w.tree)) _ _ _
    ⟨(now.left.rests.settled straight).rests, rfl⟩ loaded
  have entered := Ensures.of_preserves (preserves_load (stable_grounded w₀ r)) _ _ _ now loaded
  have all : (Pagination.pages prims).take (2 * prims.length + 1) = Pagination.pages prims :=
    List.take_of_length_le (Pagination.length_pages prims).le
  rw [← all] at ran
  have wrote := ensures_pages_files tame straight start plain named loaded entered le_rfl
    _ _ _ rfl ran
  refine ⟨⟨prims, loads⟩, ((writes_nothing still.same).trans wrote).congr ?_ ?_⟩
  · intro a
    constructor
    · rintro ⟨prims', loads', file⟩
      obtain rfl := loads.unique loads'
      exact .inr file
    · rintro (never | file)
      · exact never.elim
      · exact ⟨prims, loads, file⟩
  · rintro a bytes (never | content)
    · exact never.elim
    · exact ⟨prims, debug, loads, found, content⟩

end Tame

/-- Where pages can be made, the directory of the pages can be entered. -/
theorem entered_of_pages {t : FileTree} {pages : List (Page Primitive)} {debug : Option Function}
    {count : Nat} (confined : w₀.Confined) (straight : "..".toList ∉ w₀.temporary)
    (plain : '/' ∉ f.name) (nonempty : pages ≠ []) :
    Ensures (Still w₀ t) (pages.forM (r.explorePage f debug code count)) fun _ _ =>
      t.Entered w₀.directory r.output := by
  obtain ⟨page, rest, rfl⟩ := List.exists_cons_of_ne_nil nonempty
  exact (entered_of_explorePage confined straight plain).bind fun _ _ _ _ h _ => h

/-- Where a function can be explored, the directory of the pages can be entered. -/
theorem entered_of_exploreFunction {t : FileTree} (confined : w₀.Confined)
    (straight : "..".toList ∉ w₀.temporary) (plain : '/' ∉ f.name) :
    Ensures (Still w₀ t) (r.exploreFunction f code) fun _ _ =>
      t.Entered w₀.directory r.output := by
  refine Ensures.bind (.of_preserves (preserves_load (stable_still w₀ t))) fun prims => ?_
  refine Ensures.bind (.of_preserves (.ofExcept _)) fun debug => ?_
  apply entered_of_pages confined straight plain
  rw [← List.length_pos_iff, Pagination.length_pages]
  omega

/-- A run that succeeds found the directory of the pages. -/
theorem Explored.entered {start behind : World} (h : Explored w₀ r names code start behind w)
    (confined : w₀.Confined) (straight : "..".toList ∉ w₀.temporary)
    (plain : ∀ f ∈ r.written names, '/' ∉ f.name) (still : Still w₀ w₀.tree start) :
    w₀.tree.Entered w₀.directory r.output := by
  have pages := h.pages
  have index : ∀ functions, Ensures (Still w₀ w₀.tree) (r.writeIndex functions) fun _ _ =>
      w₀.tree.Entered w₀.directory r.output :=
    fun _ => Ensures.bind (.of_preserves (.ofExcept _)) fun _ =>
      entered_of_write (by decide) (by decide)
  cases functions : r.written names with
  | nil =>
    rw [functions] at pages
    cases pages
    exact index _ _ _ _ still h.index
  | cons f rest =>
    rw [functions] at pages
    obtain ⟨_, mid, ran, -⟩ := perform_bind_iff.1 pages
    have plain := plain f (by rw [functions]; exact List.mem_cons_self)
    exact entered_of_exploreFunction confined straight plain _ _ _ still ran

/-- What the list of functions is made of. -/
def IndexContent (w₀ : World) (r : Report) (functions : List Text) (a : Address) (bytes : Bytes) :
    Prop :=
  a = r.indexPlace w₀.directory ∧ ∃ content,
    r.render "index" [("ll_name", .ofText r.assemblyName),
      ("funcs_html", .ofText (Markup.index functions))] = .ok content ∧
        Utf8.encodeWide content = .ok bytes

/-- Writing the list of functions writes that and nothing else. -/
theorem ensures_writeIndex_files {functions : List Text} (straight : "..".toList ∉ w₀.temporary)
    (now : Grounded w₀ r w) :
    Ensures (· = w) (r.writeIndex functions) fun _ w' =>
      Writes w (· = r.indexPlace w₀.directory)
        (IndexContent w₀ r functions) w' := by
  have stays := now.left.rests.stays
  have leaves : Leaves w (· ≠ r.indexPlace w₀.directory) w :=
    ⟨(now.left.rests.settled straight).rests, fun _ _ => rfl⟩
  have stable := (stable_leaves w (· ≠ r.indexPlace w₀.directory)).since stays
  have kept : Ensures (Leaves w (· ≠ r.indexPlace w₀.directory))
      (r.writeIndex functions) fun _ =>
        Leaves w (· ≠ r.indexPlace w₀.directory) :=
    .of_preserves (preserves_writeIndex stable fun _ => .inl fun other => other rfl)
  refine ((kept.from_world leaves).and ((ensures_fill_write _ _ _).from_world stays)).mono
    (fun _ h => h) ?_
  rintro _ w' ⟨left, content, rendered, bytes, encoded, there⟩
  refine ⟨?_, fun a other => left.left a other⟩
  rintro a rfl
  exact ⟨bytes, ⟨rfl, content, rendered, encoded⟩, fileAt?_eq_some_iff.2 there.kept.node⟩

/-- The files of a report: the list of functions and the files of the functions. -/
inductive ReportFile (w₀ : World) (r : Report) (names : List Text) (hasCode : Bool) :
    Address → Prop where
  | index : ReportFile w₀ r names hasCode (r.indexPlace w₀.directory)
  | function {f : Function} {a : Address} (member : f ∈ r.written names)
      (file : FunctionFile w₀ r f.name hasCode a) : ReportFile w₀ r names hasCode a

/-- What is made for a file of a report: the files of a function are made by the run of the function,
which starts in the world in which the run of the report comes to the function. -/
inductive ReportContent (w₀ : World) (r : Report) (names : List Text) (code : Option Text) :
    Address → Bytes → Prop where
  | index {a : Address} {bytes : Bytes}
      (content : IndexContent w₀ r ((r.written names).map (·.name)) a bytes) :
      ReportContent w₀ r names code a bytes
  | function {f : Function} {v : World} {a : Address} {bytes : Bytes} (member : f ∈ r.written names)
      (comes : ComesToFunction w₀ r names code f v)
      (content : FunctionContent w₀ r code f v a bytes) : ReportContent w₀ r names code a bytes

/-- The functions whose pages are written are functions of the module. -/
theorem of_mem_written (names : List Text) {p : Function → Prop} (all : ∀ f ∈ r.assembly.funcs, p f) :
    ∀ f ∈ r.written names, p f :=
  fun f member => all f (List.mem_of_mem_filter member)

/-- Before a run that succeeds, the graphs are where they are during the run. -/
theorem Explored.grounded {start behind : World} (h : Explored w₀ r names code start behind w)
    (settled : w₀.Settled) (confined : w₀.Confined) (plain : ∀ f ∈ r.written names, '/' ∉ f.name) :
    Grounded w₀ r w₀ :=
  ⟨⟨settled.rests, fun _ _ => rfl⟩, h.entered confined settled.straight plain
    (h.at_start (stable_still w₀ w₀.tree) ⟨settled.rests, rfl⟩)⟩

/-- A run that succeeds writes the files of the report and no others. -/
theorem Explored.writes {start behind : World} (h : Explored w₀ r names code start behind w)
    (settled : w₀.Settled) (tame : w₀.Tame r.config.layouter)
    (plain : ∀ f ∈ r.written names, f.name ≠ [] ∧ '/' ∉ f.name) :
    (∀ f ∈ r.written names, ∃ prims, Loads w₀ r f.name prims) ∧
      Writes w₀ (ReportFile w₀ r names code.isSome) (ReportContent w₀ r names code) w := by
  have unbroken := fun f member => (plain f member).2
  have ground := h.grounded settled tame.confined unbroken
  -- nothing is written before the first page
  have still := h.at_start (stable_still w₀ w₀.tree) ⟨settled.rests, rfl⟩
  have comes : ∀ f v, Reaches (fun g => r.exploreFunction g code) start (r.written names) f v →
      ComesToFunction w₀ r names code f v := by
    intro f v reached
    obtain ⟨w₁, source, selected⟩ := h.source
    exact ⟨h.initialized, w₁, start, source, selected, reached⟩
  have here : ∀ f v, Reaches (fun g => r.exploreFunction g code) start (r.written names) f v →
      Grounded w₀ r v := fun f v reached =>
    (comes f v reached).grounded tame.modest settled.straight unbroken ground
  have files : ∀ f v, Reaches (fun g => r.exploreFunction g code) start (r.written names) f v →
      Ensures (· = v) (r.exploreFunction f code) fun _ w' => (∃ prims, Loads w₀ r f.name prims) ∧
        Writes v (FunctionFile w₀ r f.name code.isSome) (FunctionContent w₀ r code f v) w' := by
    intro f v reached
    obtain ⟨named, unbroken⟩ := plain f reached.mem
    exact ensures_exploreFunction_files tame settled.straight ground unbroken named (here f v reached)
  constructor
  · intro f member
    obtain ⟨v, v', reached, ran⟩ := exists_reaches h.pages f member
    exact (files f v reached _ _ _ rfl ran).1
  have pages := ensures_forM_writes (fun f v reached =>
    (files f v reached).mono (fun _ h => h) fun _ _ h => h.2) _ _ _ rfl h.pages
  have now : Grounded w₀ r behind := Ensures.of_preserves (.forM fun f member =>
    preserves_exploreFunction_grounded tame.modest settled.straight (unbroken f member)) _ _ _
      (h.at_start (stable_grounded w₀ r) ground) h.pages
  have index := ensures_writeIndex_files settled.straight now _ _ _ rfl h.index
  refine (((writes_nothing still.same).trans pages).trans index).congr ?_ ?_
  · intro a
    constructor
    · rintro (_ | ⟨member, file⟩)
      · exact .inr rfl
      · exact .inl (.inr ⟨_, member, file⟩)
    · rintro ((never | ⟨f, member, file⟩) | rfl)
      · exact never.elim
      · exact .function member file
      · exact .index
  · rintro a bytes ((never | ⟨f, v, reached, content⟩) | content)
    · exact never.elim
    · exact .function reached.mem (comes f v reached) content
    · exact .index content

/-- A run that succeeds returns the names of the wanted functions that have a body, and writes the
files of the report and no others. -/
theorem explore_writes_report {r : Report} {names done : List Text} {w₀ w : World}
    (settled : w₀.Settled) (tame : w₀.Tame r.config.layouter)
    (plain : ∀ f ∈ r.assembly.funcs, f.name ≠ [] ∧ '/' ∉ f.name)
    (ran : perform (r.explore names) w₀ = (.ok done, w)) :
    done = (r.assembly.funcs.filter fun f =>
      (names = [] ∨ f.name ∈ names) ∧ f.blocks ≠ []).map (·.name) ∧ ∃ code,
      (∃ w₁, perform r.readSource w₀ = (.ok code, w₁)) ∧
      (∀ f ∈ r.written names, ∃ prims, Loads w₀ r f.name prims) ∧
      Writes w₀ (ReportFile w₀ r names code.isSome) (ReportContent w₀ r names code) w := by
  obtain ⟨rfl, code, start, behind, explored⟩ := explored_of_explore ran
  obtain ⟨w₁, source, -⟩ := explored.source
  refine ⟨by simp [written], code, ⟨w₁, source⟩, ?_⟩
  exact explored.writes settled tame (of_mem_written names plain)

/-- A function with one block, one without any, and one more. -/
def halfDrawnText : Text :=
  "define void @f() \x7b\n  ret void\n\x7d\ndefine void @g() \x7b\n\x7d\n" ++
    "define void @h() \x7b\n  ret void\n\x7d\n"

/-- A report with short templates. -/
def halfDrawnReport (m : Module) : Report where
  path := "r.ll"
  assembly := m
  style := "default"
  templates := some [
    ("overview", "overview of $func_name"), ("c", "source of $func_name"),
    ("llvm", "assembly of $func_name"), ("cfa", "$graph_html"), ("go", "$code_html"),
    ("index", "$funcs_html")]

/-- A world with source code, one primitive, a drawn graph for the first page and a graph that is not
drawn for the second one. -/
def halfDrawnWorld : World where
  tree := ⟨[(["r_explore"], .directory), (["r_explore", "img"], .directory),
    (["r_graphs"], .directory), (["tmp"], .directory),
    (["r.c"], .file (Utf8.encode "void f() \x7b\x7d")),
    (["r_graphs", "f.json"], .file (Utf8.encode "[\x7b\"nodes\": [\"0\"]\x7d]")),
    (["r_graphs", "f.png"], .file [1]), (["r_graphs", "f_0001a.dot"], .file [2])]⟩
  temporary := ["tmp"]
  respond := drawingPrograms [3] "package main"

theorem settled_halfDrawnWorld : halfDrawnWorld.Settled :=
  ⟨by decide +kernel, rfl, rfl, by decide⟩

/-- Of two functions that are wanted, one has a body: three pages of five files and two images are
written for it, and the list of functions. -/
theorem explore_writes_report_half_drawn :
    ∃ m, Module.ofText halfDrawnText = .ok m ∧ ∃ w code,
      perform ((halfDrawnReport m).explore ["f", "g"]) halfDrawnWorld = (.ok ["f"], w) ∧
      (w.tree.filesBelow ["r_explore"]).length = 18 ∧
      Writes halfDrawnWorld (ReportFile halfDrawnWorld (halfDrawnReport m) ["f", "g"] code.isSome)
        (ReportContent halfDrawnWorld (halfDrawnReport m) ["f", "g"] code) w := by
  obtain ⟨m, parsed, plain, ran, count⟩ : ∃ m, Module.ofText halfDrawnText = .ok m ∧
      (∀ f ∈ m.funcs, f.name ≠ [] ∧ '/' ∉ f.name) ∧
      (perform ((halfDrawnReport m).explore ["f", "g"]) halfDrawnWorld).1.toOption =
        some ["f".toList] ∧
      ((perform ((halfDrawnReport m).explore ["f", "g"]) halfDrawnWorld).2.tree.filesBelow
        ["r_explore"]).length = 18 :=
    ⟨_, by cbv, by decide +kernel, by decide +kernel, by decide +kernel⟩
  have ran := perform_eq_ok ran
  obtain ⟨-, code, -, -, writes⟩ := explore_writes_report settled_halfDrawnWorld
    (tame_of_drawing rfl (halfDrawnReport m).config.layouter) (r := halfDrawnReport m) plain ran
  exact ⟨m, parsed, _, code, ran, count, writes⟩

end FlowReport.Report
