import FlowReport.Proofs.CodeLines
import FlowReport.Proofs.Decompilation
import FlowReport.Proofs.Paging
import FlowReport.Proofs.ReportRuns

/-!
# What the decompiler sees

The pages of a function are decompiled one after the other, each with the primitives that are
recovered on it. A page makes one call of the decompiler, and its last pane shows what came of it;
so a run makes one call for each page, and nothing that is done later touches the panes.
-/

namespace FlowReport

open Assembly FileTree FlowReport.Action World

/-- The call asks to decompile a function. -/
def Call.decompiles (call : Call) : Bool := call.command[1]? == some "-funcs".toList

/-- A module that was read from a path has a file name. -/
theorem Toolchain.fileName_of_readModule {path : Text} {m : Module} {w w' : World}
    (settled : w.Settled) (ran : perform (Input.readModule path) w = (.ok m, w')) :
    Toolchain.FileName (Input.fileName path) := by
  unfold Input.fileName
  split
  · exact ⟨by decide, by decide, by decide, by decide⟩
  rename_i ne
  rw [Input.readModule, if_neg ne] at ran
  obtain ⟨_, logged, log, ran⟩ := perform_bind_iff.1 ran
  cases log
  obtain ⟨_, _, read, -⟩ := perform_bind_iff.1 ran
  obtain ⟨content, _, read, -⟩ := perform_bind_iff.1 read
  rw [perform_readBytes] at read
  have read := (Prod.mk.inj read).1
  split at read
  · cases read
  -- what is read is a file, and the way to it ends with a name
  cases found : w.tree.resolve w.directory (Path.ofText path) with
  | error fault =>
    have none : w.tree.read w.directory (Path.ofText path) = .error fault := by
      rw [FileTree.read, found]
      rfl
    rw [none] at read
    cases read
  | ok a =>
    have file : w.tree.get? a ≠ some .directory := by
      intro directory
      have none : w.tree.read w.directory (Path.ofText path) = .error .isADirectory := by
        rw [FileTree.read, found]
        simp only [bind, Except.bind, directory]
      rw [none] at read
      cases read
    obtain ⟨last, names, up⟩ := last_name_of_resolve (settled.closed.holds settled.home) found file
    have member := List.mem_of_getLast? names
    have kept := List.of_mem_filter (show last ∈ (Path.ofText path).names from member)
    rw [decide_eq_true_eq] at kept
    have name : (Path.ofText path).name = last := by rw [Path.name, names, Option.getD_some]
    rw [name]
    exact ⟨kept.1, kept.2, up, Path.unbroken_names path last member⟩

namespace Report

variable {w₀ : World} {r : Report} {f : Function} {debug : Option Function}
  {code : Option Text} {count : Nat} {page : Page Primitive}

/-- Drawing a graph is no decompiling. -/
theorem draws_decompiling {I : World → Prop} {function : Text} :
    r.Draws w₀ ⟨fun _ _ => True, fun c => c.decompiles = false⟩ I function page where
  image _ _ := trivial
  layouter _ := by
    refine ⟨fun _ _ => trivial, fun graph => ?_⟩
    refine allows_everything.mono (fun _ _ => id) ?_
    intro call command _
    show (call.command[1]? == _) = false
    rw [command]
    show (some "-Tpng".toList == some "-funcs".toList) = false
    decide

/-- The pane for the decompiled code, as it is made from an output of the decompiler: its template is
filled in with a table of the lines of the output, of which none is highlighted. -/
def RendersOutput (r : Report) (function : Text) (page : Page Primitive) (output : Text)
    (bytes : Bytes) : Prop :=
  ∃ html content, CodeTable.Shows html
      ((Text.feedLines (CodeTable.unmarked output).unifyBreaks).map (CodeTable.expandTabs 0))
      (fun _ => False) ∧
    r.render "go" (r.codeFields function (describeDecompiled page) html) = .ok content ∧
    Utf8.encodeWide content = .ok bytes

/-- The pane for the decompiled code holds what is made from an output of the decompiler. -/
def ShowsOutput (w₀ : World) (r : Report) (function : Text) (page : Page Primitive) (output : Text)
    (w : World) : Prop :=
  ∃ bytes, r.RendersOutput function page output bytes ∧
    Keeps w₀ (r.pagePlace w₀.directory function .decompiled page.number) (.file bytes) w

theorem Renders.output {found : Material} {bytes : Bytes}
    (h : r.Renders f code count page found .decompiled bytes) :
    r.RendersOutput f.name page found.output bytes := by
  obtain ⟨content, filled, encoded⟩ := h
  exact ⟨_, content, CodeTable.shows_table_expand_nil _, filled, encoded⟩

/-- The last file of a page shows the output of the decompiler. -/
theorem ensures_writePage_output {lines : List LineRange × List LineRange} {output : Text} :
    Ensures (Stays w₀) (r.writePage f code count page lines output) fun _ =>
      ShowsOutput w₀ r f.name page output := by
  have stable := stable_stays w₀
  refine Ensures.bind (.of_preserves (preserves_writeFront stable fun _ _ _ => trivial)) fun _ => ?_
  refine Ensures.bind (.of_preserves (preserves_writeGraph stable draws_everything
    fun _ => trivial)) fun _ => ?_
  have shown : Ensures (Stays w₀) (r.writeCode f.name .decompiled page.number output []
      (describeDecompiled page)) fun _ =>
        Shows w₀ r f code count page ⟨lines, [], output⟩ .decompiled := ensures_writeCode rfl rfl
  refine shown.mono (fun _ h => h) ?_
  rintro _ w ⟨bytes, renders, kept⟩
  exact ⟨bytes, renders.output, kept⟩

/-- A call of the decompiler for a page, with its outcome. -/
structure Decompiles (w₀ : World) (r : Report) (function : Text) (prims : List Primitive)
    (call : Call) (outcome : Outcome) : Prop where
  asked : Toolchain.Asked w₀ r.config r.assemblyName r.assembly.text function prims call
  answered : w₀.respond call = some outcome
  fine : outcome.status = 0

/-- A page makes one call of the decompiler and shows its output. -/
theorem ensures_explorePage_call {calls : List Call} (straight : "..".toList ∉ w₀.temporary)
    (file : Toolchain.FileName r.assemblyName) (plain : '/' ∉ f.name) :
    Ensures (Heard w₀ Call.decompiles calls) (r.explorePage f debug code count page) fun _ w =>
      ∃ call outcome, Decompiles w₀ r f.name page.recovered call outcome ∧
        Heard w₀ Call.decompiles (calls ++ [call]) w ∧
          ShowsOutput w₀ r f.name page outcome.output w := by
  refine Ensures.bind (.of_preserves (.ofExcept _)) ?_
  intro lines
  apply Ensures.pointwise
  intro w heard
  have staging : Toolchain.Staging w₀ .everything (Rests w₀) r.config r.assemblyName f.name :=
    Toolchain.staging_everything straight r.unbroken_assemblyName f.name
  have rests := (Ensures.of_preserves (Toolchain.preserves_decompile (stable_rests w₀) staging
    r.assembly.text page.recovered)).from_world heard.rests
  refine ((Toolchain.ensures_decompile heard.rests straight file plain).and rests).bind ?_
  intro output
  apply Ensures.pointwise
  rintro v ⟨⟨call, outcome, called, asked, answered, fine, rfl⟩, rests⟩
  have more : Heard w₀ Call.decompiles (calls ++ [call]) v := by
    have own : call.decompiles = true := by
      show (call.command[1]? == _) = true
      rw [asked.command]
      exact beq_self_eq_true _
    refine ⟨rests, ?_⟩
    rw [called, List.filter_append, heard.heard, List.filter_cons_of_pos own, List.filter_nil]
  have keeps : Preserves (Heard w₀ Call.decompiles (calls ++ [call]))
      (r.writePage f code count page lines outcome.output) :=
    preserves_writePage (stable_heard w₀ _ _) draws_decompiling fun _ _ _ => trivial
  refine (((Ensures.of_preserves keeps).from_world more).and
    (ensures_writePage_output.from_world rests.stays)).mono (fun _ same => same) ?_
  rintro _ w' ⟨heard, shows⟩
  exact ⟨call, outcome, ⟨asked, answered, fine⟩, heard, shows⟩

/-- A call of the decompiler for a page, whose output the pane of the page is made from and shows, as
long as no program writes there. -/
def Answers (w₀ : World) (r : Report) (function : Text) (page : Page Primitive)
    (prims : List Primitive) (call : Call) (w : World) : Prop :=
  ∃ outcome bytes, Decompiles w₀ r function prims call outcome ∧
    r.RendersOutput function page outcome.output bytes ∧
      (w₀.Spares (r.pagePlace w₀.directory function .decompiled page.number) →
        w.tree.Holds (r.pagePlace w₀.directory function .decompiled page.number) (.file bytes))

/-- The calls for the pages that are done, one for each. -/
def Called (w₀ : World) (r : Report) (f : Function) (calls : List Call)
    (done : List (Page Primitive)) (w : World) : Prop :=
  ∃ made, Heard w₀ Call.decompiles (calls ++ made) w ∧
    List.Forall₂ (fun page call => Answers w₀ r f.name page page.recovered call w) done made

/-- One more page makes one more call and leaves the panes before it alone. -/
theorem ensures_called {calls : List Call} {done : List (Page Primitive)}
    (straight : "..".toList ∉ w₀.temporary) (file : Toolchain.FileName r.assemblyName)
    (plain : '/' ∉ f.name) (new : ∀ other ∈ done, other.number ≠ page.number) :
    Ensures (Called w₀ r f calls done) (r.explorePage f debug code count page) fun _ =>
      Called w₀ r f calls (done ++ [page]) := by
  rintro w _ w' ⟨made, heard, answers⟩ ran
  obtain ⟨call, outcome, decompiles, heard', bytes, renders, kept⟩ :=
    ensures_explorePage_call straight file plain w _ w' heard ran
  refine ⟨made ++ [call], by rwa [← List.append_assoc], ?_⟩
  refine List.rel_append ?_ (.cons ⟨outcome, bytes, decompiles, renders, fun _ => kept.kept⟩ .nil)
  obtain ⟨length, each⟩ := List.forall₂_iff_zip.1 answers
  refine List.forall₂_iff_zip.2 ⟨length, ?_⟩
  intro other call' member
  obtain ⟨outcome', bytes', decompiles', renders', there⟩ := each member
  refine ⟨outcome', bytes', decompiles', renders', fun spares => ?_⟩
  -- the pane of another page is none of the files of this one
  have ne := new other (List.of_mem_zip member).1
  have keeps : Preserves (Keeps w₀ (r.pagePlace w₀.directory f.name .decompiled other.number)
      (.file bytes')) (r.explorePage f debug code count page) :=
    keeps_explorePage (.inr ⟨spares, lastChar_pagePlace _ _ _ _ _⟩) straight
      (.inr fun pane _ same => ne (pagePlace_same_iff.1 same).2.2.symm)
  exact (Ensures.of_preserves keeps w _ w' { heard.rests.stays with kept := there spares } ran).kept

/-- The run of a function makes one call of the decompiler for each page. -/
theorem ensures_exploreFunction_calls (ready : w₀.Settled)
    (file : Toolchain.FileName r.assemblyName) (plain : '/' ∉ f.name) :
    Ensures (· = w₀) (r.exploreFunction f code) fun _ w => ∃ prims,
      Loads w₀ r f.name prims ∧
        Called w₀ r f (w₀.calls.filter Call.decompiles) (Pagination.pages prims) w := by
  have heard : Heard w₀ Call.decompiles (w₀.calls.filter Call.decompiles) w₀ :=
    ⟨ready.rests, rfl⟩
  have load : Preserves (Heard w₀ Call.decompiles (w₀.calls.filter Call.decompiles))
      (PrimitiveFile.load r.graphs f.name) := preserves_load (stable_heard w₀ _ _)
  intro w _ w' same ran
  obtain rfl : w₀ = w := same.symm
  obtain ⟨prims, debug, w₁, loaded, -, ran⟩ := perform_exploreFunction_iff.1 ran
  have entered := Ensures.of_preserves load _ _ _ heard loaded
  have pages : Ensures (Called w₀ r f (w₀.calls.filter Call.decompiles) [])
      ((Pagination.pages prims).forM (r.explorePage f debug code (Pagination.count prims)))
      fun _ => Called w₀ r f (w₀.calls.filter Call.decompiles) (Pagination.pages prims) := by
    apply Ensures.forM_grow
    intro done page rest split
    apply ensures_called ready.straight file plain
    have distinct := numbers_distinct prims
    rw [split] at distinct
    intro other member
    exact (List.pairwise_append.1 distinct).2.2 other member page List.mem_cons_self
  exact ⟨prims, ⟨w₁, loaded⟩, pages _ _ _ ⟨[], by rwa [List.append_nil], .nil⟩ ran⟩

/-- What a run of a function asks the decompiler, page by page, and what the panes are made from;
and that no call of the decompiler leaves a trace in the tree. -/
theorem decompiler_sees_pages {r : Report} {f : Function} {code : Option Text}
    {w₀ start behind : World} (settled : start.Settled)
    (read : perform (Input.readModule r.path) start = (.ok r.assembly, behind))
    (plain : '/' ∉ f.name) (ready : w₀.Settled) (confined : w₀.Confined) :
    (∀ w, perform (r.exploreFunction f code) w₀ = (.ok (), w) → ∃ prims made,
      Loads w₀ r f.name prims ∧
      w.calls.filter Call.decompiles = w₀.calls.filter Call.decompiles ++ made ∧
      made.length = 2 * prims.length + 1 ∧
      ∀ i, (h : i < made.length) →
        Answers w₀ r f.name (Pagination.page prims (i + 1)) (prims.take (i / 2)) made[i] w) ∧
    ∀ prims, (perform (r.decompile f.name prims) w₀).2.tree = w₀.tree ∧
      ∃ made, (perform (r.decompile f.name prims) w₀).2.calls = w₀.calls ++ made ∧
        ∀ call ∈ made, ∃ d, call.directory = some d ∧ w₀.tree.get? d.names = none := by
  constructor
  · intro w ran
    have file := Toolchain.fileName_of_readModule settled read
    obtain ⟨prims, loaded, made, heard, answers⟩ :=
      ensures_exploreFunction_calls ready file plain w₀ () w rfl ran
    have length := answers.length_eq.symm.trans (Pagination.length_pages prims)
    refine ⟨prims, made, loaded, heard.heard, length, ?_⟩
    intro i h
    have answer := answers.get (answers.length_eq ▸ h) h
    rw [List.get_eq_getElem, List.get_eq_getElem, Pagination.getElem_pages,
      Pagination.recovered_page _ (Nat.le_add_left 1 i), Nat.add_sub_cancel] at answer
    exact answer
  · intro prims
    exact Toolchain.still_decompile ready confined r.unbroken_assemblyName
      (Path.inner_above_of_unbroken plain 1) _ prims

/-- A function with one block. -/
def singleText : Text := "define void @f() \x7b\nb:\n  ret void\n\x7d\n"

/-- A report with short templates, of which one shows the decompiled code. -/
def singleReport (m : Module) : Report where
  path := "r.ll"
  assembly := m
  style := "default"
  templates := some [
    ("overview", "overview of $func_name"), ("llvm", "assembly of $func_name"),
    ("cfa", "graph of $func_name"), ("go", "$code_html"), ("index", "$funcs_html")]

/-- A world with one primitive for the function, and with a decompiler that writes a file into its
directory and counts the calls before it. -/
def singleWorld : World where
  tree := ⟨[(["r_explore"], .directory), (["r_graphs"], .directory), (["tmp"], .directory),
    (["r.ll"], .file (Utf8.encode singleText)),
    (["r_graphs", "f.json"], .file (Utf8.encode "[\x7b\"nodes\": [\"b\"]\x7d]"))]⟩
  temporary := ["tmp"]
  respond call := some {
    writes := call.directory.toList.map fun d => (⟨d.root, d.names ++ ["f.go".toList]⟩, .file [])
    output := "package " ++ Numeral.ofNat call.earlier }

theorem settled_singleWorld : singleWorld.Settled :=
  ⟨by decide +kernel, rfl, rfl, by decide⟩

theorem confined_singleWorld : singleWorld.Confined := by
  intro call outcome d responds directory write member
  cases responds
  rw [directory] at member
  rw [List.mem_singleton.1 member]
  exact ⟨["f.go".toList], rfl, by decide⟩

/-- The files that are staged, with a document that lists primitives. -/
def singleStaged (document : Text) : Option (List (Address × Bytes)) :=
  some [(["r.ll"], Utf8.encode singleText), (["r_graphs", "f.json"], Utf8.encode document)]

/-- The document with the one primitive. -/
def singleDocument : Text :=
  "[\n  \x7b\n    \"nodes\": [\n      \"b\"\n    ]\n  \x7d\n]\n"

/-- Three calls are made for the one primitive: it is staged for the last one only, and each pane shows
the output of its own call. -/
theorem decompiler_sees_three_pages :
    ∃ m f behind w, perform (Input.readModule "r.ll") singleWorld = (.ok m, behind) ∧
      f ∈ m.funcs ∧ perform ((singleReport m).exploreFunction f none) singleWorld = (.ok (), w) ∧
      ∃ prims made, w.calls.filter Call.decompiles = made ∧ made.length = 3 ∧
        (∀ i, (h : i < made.length) → Answers singleWorld (singleReport m) f.name
          (Pagination.page prims (i + 1)) (prims.take (i / 2)) made[i] w) ∧
        made.map Call.staged =
          [singleStaged "[]\n", singleStaged "[]\n", singleStaged singleDocument] ∧
        ∀ i < 3, ∃ html, w.tree.get? ["r_explore", Pane.fileName f.name .decompiled (i + 1)] =
            some (.file (Utf8.encode html)) ∧
          CodeTable.Shows html ["package ".toList ++ Numeral.ofNat i] fun _ => False := by
  obtain ⟨m, f, -, read, member, plain, ran, count, staged, panes⟩ : ∃ m f,
      Module.ofText singleText "r.ll" = .ok m ∧
      (perform (Input.readModule "r.ll") singleWorld).1.toOption = some m ∧ f ∈ m.funcs ∧
      '/' ∉ f.name ∧
      (perform ((singleReport m).exploreFunction f none) singleWorld).1.toOption = some () ∧
      ((perform ((singleReport m).exploreFunction f none) singleWorld).2.calls.filter
        Call.decompiles).length = 3 ∧
      ((perform ((singleReport m).exploreFunction f none) singleWorld).2.calls.filter
        Call.decompiles).map Call.staged =
          [singleStaged "[]\n", singleStaged "[]\n", singleStaged singleDocument] ∧
      ∀ i < 3, (perform ((singleReport m).exploreFunction f none) singleWorld).2.tree.get?
          ["r_explore", Pane.fileName f.name .decompiled (i + 1)] = some (.file (Utf8.encode
            (CodeTable.table ("package ".toList ++ Numeral.ofNat i) (LineRange.expand [])))) :=
    ⟨_, _, by cbv, by decide +kernel, List.mem_cons_self, by decide +kernel, by decide +kernel,
      by decide +kernel, by decide +kernel, by decide +kernel⟩
  have read := perform_eq_ok read
  have ran := perform_eq_ok ran
  obtain ⟨prims, made, -, heard, -, answers⟩ := (decompiler_sees_pages settled_singleWorld
    (r := singleReport m) read plain settled_singleWorld confined_singleWorld).1 _ ran
  change List.filter Call.decompiles (perform _ singleWorld).2.calls = made at heard
  rw [heard] at count staged
  refine ⟨m, f, _, _, read, member, ran, prims, made, heard, count, answers, staged, ?_⟩
  have lines : ∀ i < 3, (Text.feedLines (CodeTable.unmarked
      ("package ".toList ++ Numeral.ofNat i)).unifyBreaks).map (CodeTable.expandTabs 0) =
      ["package ".toList ++ Numeral.ofNat i] := by decide +kernel
  intro i small
  refine ⟨_, panes i small, ?_⟩
  rw [← lines i small]
  exact CodeTable.shows_table_expand_nil _

end Report

end FlowReport
