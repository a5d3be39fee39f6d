import FlowReport.Proofs.Pages

/-!
# Runs that write pages

What a successful run of each step leaves in the file that it is about, and that it leaves all other
files of pages alone. The programs are strangers: that they spare the pages is an assumption.
-/

namespace FlowReport

open Assembly FileTree FlowReport.Action World

/-- A node that nothing but a write to its own address changes: a directory, or a file that the
programs spare and that has the ending of a page. -/
def World.Safe (w₀ : World) (a : Address) (node : Node) : Prop :=
  node = .directory ∨ w₀.Spares a ∧ lastChar a = some 'l'

namespace Report

variable {w₀ : World} {a : Address} {node : Node} {r : Report}

/-- Choosing a style logs that its name is unknown. -/
theorem preserves_resolve_of {I : World → Prop}
    (logged : ∀ level topic message, Preserves I (Action.log level topic message)) (name : Text) :
    Preserves I (Style.resolve name) :=
  .ite (fun _ => .pure _) fun _ => (logged _ _ _).bind fun _ => .pure _

section Stable

variable {s : Scope} {I : World → Prop} (stable : Stable w₀ s I)

include stable

theorem preserves_write {name : Text} {content : WideText}
    (puts : ∀ bytes, s.puts (place w₀.directory (r.output.child name)) (.file bytes)) :
    Preserves I (r.write name content) :=
  (preserves_log stable _ _ _).bind fun _ => preserves_writeWide stable puts

theorem preserves_fill_write {template name : Text} {fields : Table Json}
    (puts : ∀ bytes, s.puts (place w₀.directory (r.output.child name)) (.file bytes)) :
    Preserves I (r.fill template fields >>= r.write name) :=
  (Preserves.ofExcept _).bind fun _ => preserves_write stable puts

theorem preserves_resolve (name : Text) : Preserves I (Style.resolve name) :=
  preserves_resolve_of (preserves_log stable) name

theorem preserves_highlighted (source language style : Text) (ranges : List LineRange) :
    Preserves I (CodeTable.highlighted source language style ranges) := by
  refine (preserves_resolve stable style).bind ?_
  intro _
  extract_lets
  exact .ite (fun _ => (preserves_log stable _ _ _).bind fun _ => .pure _) fun _ => .pure _

theorem preserves_writeOverview {function : Text} {page : Page Primitive} {count : Nat}
    {hasCode : Bool}
    (puts : ∀ bytes, s.puts (r.pagePlace w₀.directory function .overview page.number) (.file bytes)) :
    Preserves I (r.writeOverview function page count hasCode) :=
  preserves_fill_write stable puts

theorem preserves_writeCode {function : Text} {pane : Pane} {number : Nat} {source : Text}
    {lines : List LineRange} {description : WideText}
    (puts : ∀ bytes, s.puts (r.pagePlace w₀.directory function pane number) (.file bytes)) :
    Preserves I (r.writeCode function pane number source lines description) :=
  (preserves_highlighted stable _ _ _ _).bind fun _ => preserves_fill_write stable puts

end Stable

/-- The drawn graph that a page shows. -/
def drawing (r : Report) (function : Text) (page : Page Primitive) : Path :=
  r.graphs.child (Pane.drawingName function page.step page.subStep)

/-- The image on a page. -/
def image (r : Report) (function : Text) (page : Page Primitive) : Path :=
  (r.output.child "img").child (Pane.imageName function page.number)

/-- There is a graph for a page, drawn or not. -/
def HasGraph (r : Report) (function : Text) (page : Page Primitive) (w : World) : Prop :=
  w.HasFile (r.drawing function page) ∨ w.HasFile ((r.drawing function page).withSuffix ".dot")

/-- What is done about the graph of a page is within the scope, unless the property says that there
is no graph. -/
structure Draws (r : Report) (w₀ : World) (s : Scope) (I : World → Prop) (function : Text)
    (page : Page Primitive) : Prop where
  image : (∃ w, I w ∧ r.HasGraph function page w) → ∀ bytes,
    s.puts (r.imagePlace w₀.directory function page.number) (.file bytes)
  layouter : (∃ w, I w ∧ r.HasGraph function page w) →
    s.Makes w₀.directory (r.image function page).parent ∧ ∀ graph : Path,
      w₀.Allows s [r.config.layouter, "-Tpng", "-o", (r.image function page).text, graph.text] none

/-- What is done about a page is within the scope. -/
structure Admits (r : Report) (w₀ : World) (s : Scope) (I : World → Prop) (function : Text)
    (hasCode : Bool) (page : Page Primitive) : Prop extends Draws r w₀ s I function page where
  panes : ∀ pane ∈ files hasCode, ∀ bytes,
    s.puts (r.pagePlace w₀.directory function pane page.number) (.file bytes)
  decompiler : Toolchain.Staging w₀ s I r.config r.assemblyName function

section Stable

variable {s : Scope} {I : World → Prop} (stable : Stable w₀ s I) {function : Text}
  {page : Page Primitive}

include stable

theorem preserves_placeGraph (draws : r.Draws w₀ s I function page) :
    Preserves I (r.placeGraph function page) := by
  apply preserves_isFile_bind
  · intro drawn
    have graph : ∃ w, I w ∧ r.HasGraph function page w :=
      drawn.imp fun w h => ⟨h.1, .inl h.2⟩
    refine (preserves_log stable _ _ _).bind ?_
    intro _
    exact (preserves_copyFile stable (draws.image graph)).bind fun _ => .pure _
  · refine preserves_isFile_bind ?_ ?_
    · intro there
      have graph : ∃ w, I w ∧ r.HasGraph function page w :=
        there.imp fun w h => ⟨h.1, .inr h.2⟩
      obtain ⟨makes, allows⟩ := draws.layouter graph
      refine (preserves_log stable _ _ _).bind ?_
      intro _
      exact (Toolchain.preserves_layout stable makes (allows _)).bind fun _ => .pure _
    · exact (preserves_log stable _ _ _).bind fun _ => .pure _

theorem preserves_writeGraph (draws : r.Draws w₀ s I function page)
    (puts : ∀ bytes, s.puts (r.pagePlace w₀.directory function .graph page.number) (.file bytes)) :
    Preserves I (r.writeGraph function page) :=
  (preserves_placeGraph stable draws).bind fun _ => preserves_fill_write stable puts

/-- A page is written if its overview can be: the rest of it may use what that says about the
world. -/
theorem preserves_writePage_behind {s' : Scope} {J : World → Prop} (stable' : Stable w₀ s' J)
    (weaken : ∀ w, J w → I w) {f : Function} {code : Option Text} {count : Nat}
    {lines : List LineRange × List LineRange} {output : Text}
    (first : ∀ bytes, s.puts (r.pagePlace w₀.directory f.name .overview page.number) (.file bytes))
    (behind : Ensures I (r.writeOverview f.name page count code.isSome) fun _ => J)
    (draws : r.Draws w₀ s' J f.name page) (puts : ∀ pane ∈ Pane.shown code.isSome, ∀ bytes,
      s'.puts (r.pagePlace w₀.directory f.name pane page.number) (.file bytes)) :
    Preserves I (r.writePage f code count page lines output) := by
  unfold writePage writeFront
  rw [bind_assoc]
  refine (preserves_writeOverview stable first).bind_ensures behind ?_
  intro _ w h
  apply weaken
  revert w h
  have assembly : Preserves J (r.writeCode f.name .assembly page.number f.text lines.1
      (describe f.name page)) := preserves_writeCode stable' (puts _ (by simp [Pane.shown]))
  have rest : Preserves J (do
      r.writeGraph f.name page
      r.writeCode f.name .decompiled page.number output [] (describeDecompiled page)) := by
    refine (preserves_writeGraph stable' draws (puts _ (by simp [Pane.shown]))).bind ?_
    intro _
    exact preserves_writeCode stable' (puts _ (by simp [Pane.shown]))
  cases code with
  | none => exact assembly.bind fun _ => rest
  | some source =>
    have code : Preserves J (r.writeCode f.name .code page.number source lines.2
        (describe f.name page)) := preserves_writeCode stable' (puts _ (by simp [Pane.shown]))
    exact (code.bind fun _ => assembly).bind fun _ => rest

theorem preserves_writeFront {f : Function} {code : Option Text} {count : Nat}
    {lines : List LineRange × List LineRange} (puts : ∀ pane ∈ files code.isSome, ∀ bytes,
      s.puts (r.pagePlace w₀.directory f.name pane page.number) (.file bytes)) :
    Preserves I (r.writeFront f code count page lines) := by
  have assembly : Preserves I (r.writeCode f.name .assembly page.number f.text lines.1
      (describe f.name page)) := preserves_writeCode stable (puts _ (by simp [files, Pane.shown]))
  refine (preserves_writeOverview stable (puts _ List.mem_cons_self)).bind fun _ => ?_
  cases code with
  | none => exact assembly
  | some source =>
    exact (preserves_writeCode stable (puts _ (by simp [files, Pane.shown]))).bind fun _ => assembly

theorem preserves_writePage {f : Function} {code : Option Text} {count : Nat}
    {lines : List LineRange × List LineRange} {output : Text} (draws : r.Draws w₀ s I f.name page)
    (puts : ∀ pane ∈ files code.isSome, ∀ bytes,
      s.puts (r.pagePlace w₀.directory f.name pane page.number) (.file bytes)) :
    Preserves I (r.writePage f code count page lines output) := by
  refine (preserves_writeFront stable puts).bind fun _ => ?_
  refine (preserves_writeGraph stable draws (puts _ (by simp [files, Pane.shown]))).bind fun _ => ?_
  exact preserves_writeCode stable (puts _ (by simp [files, Pane.shown]))

/-- A page keeps what its steps leave alone. -/
theorem preserves_explorePage {f : Function} {debug : Option Function} {code : Option Text}
    {count : Nat} (admits : r.Admits w₀ s I f.name code.isSome page) :
    Preserves I (r.explorePage f debug code count page) := by
  refine (Preserves.ofExcept _).bind ?_
  intro lines
  refine (Toolchain.preserves_decompile stable admits.decompiler _ _).bind ?_
  intro output
  exact preserves_writePage stable admits.toDraws admits.panes

end Stable

theorem unbroken_assemblyName (r : Report) : '/' ∉ r.assemblyName := by
  unfold assemblyName Input.fileName
  split
  · decide
  · exact Path.unbroken_name _

theorem draws_everything {I : World → Prop} {function : Text} {page : Page Primitive} :
    r.Draws w₀ .everything I function page :=
  ⟨fun _ _ => trivial, fun _ => ⟨fun _ _ => trivial, fun _ => allows_everything⟩⟩

/-- The graph of a page does no harm to a node that is safe. -/
theorem draws_keeps {function : Text} {page : Page Primitive} (safe : w₀.Safe a node) :
    r.Draws w₀ (.sparing a node) (Keeps w₀ a node) function page where
  image _ _ := by
    apply safe.imp_right
    rintro ⟨_, last⟩
    right
    intro same
    rw [← same, imagePlace, lastChar_imagePlace] at last
    exact absurd last (by decide)
  layouter _ :=
    ⟨Scope.makes_sparing _, fun _ => Spares.allows (safe.imp_right And.left) _ _⟩

/-- A page does no harm to a node that is safe and is none of its files. -/
theorem admits_keeps {function : Text} {hasCode : Bool} {page : Page Primitive}
    (safe : w₀.Safe a node) (straight : "..".toList ∉ w₀.temporary)
    (other : node = .directory ∨
      ∀ pane ∈ files hasCode, r.pagePlace w₀.directory function pane page.number ≠ a) :
    r.Admits w₀ (.sparing a node) (Keeps w₀ a node) function hasCode page where
  toDraws := draws_keeps safe
  panes pane member _ := other.imp_right fun other => .inr (other pane member)
  decompiler := by
    apply Toolchain.staging_keeps (safe.imp_right And.left) straight r.unbroken_assemblyName
    apply safe.imp_right
    rintro ⟨_, last⟩
    rw [last]
    decide

/-- A page keeps what none of its files is. -/
theorem keeps_explorePage {f : Function} {debug : Option Function} {code : Option Text}
    {count : Nat} {page : Page Primitive} (safe : w₀.Safe a node)
    (straight : "..".toList ∉ w₀.temporary)
    (other : node = .directory ∨
      ∀ pane ∈ files code.isSome, r.pagePlace w₀.directory f.name pane page.number ≠ a) :
    Preserves (Keeps w₀ a node) (r.explorePage f debug code count page) :=
  preserves_explorePage (stable_keeps w₀ a node) (admits_keeps safe straight other)

/-- A file of the report that was written is there. -/
theorem ensures_write (name : Text) (content : WideText) :
    Ensures (Stays w₀) (r.write name content) fun _ w => ∃ bytes,
      Utf8.encodeWide content = .ok bytes ∧
        Keeps w₀ (place w₀.directory (r.output.child name)) (.file bytes) w :=
  Ensures.bind (.of_preserves (preserves_log (stable_stays w₀) _ _ _)) fun _ => ensures_writeWide

/-- A template is filled in and the result is written. -/
theorem ensures_fill_write (template name : Text) (fields : Table Json) :
    Ensures (Stays w₀) (r.fill template fields >>= r.write name) fun _ w => ∃ content,
      r.render template fields = .ok content ∧ ∃ bytes, Utf8.encodeWide content = .ok bytes ∧
        Keeps w₀ (place w₀.directory (r.output.child name)) (.file bytes) w := by
  refine (Ensures.ofExcept _).bind ?_
  intro content w _ w' h ran
  exact ⟨content, h.1, ensures_write name content w _ w' h.2 ran⟩

theorem ensures_highlighted (source language style : Text) (ranges : List LineRange) :
    Ensures (Stays w₀) (CodeTable.highlighted source language style ranges) fun code w =>
      code = CodeTable.table source (LineRange.expand ranges) ∧ Stays w₀ w := by
  refine Ensures.bind (.of_preserves (preserves_resolve (stable_stays w₀) style)) ?_
  intro _
  extract_lets
  refine .ite (fun _ => ?_) fun _ => .pure _ fun _ h => ⟨rfl, h⟩
  exact Ensures.bind (.of_preserves (preserves_log (stable_stays w₀) _ _ _)) fun _ =>
    .pure _ fun _ h => ⟨rfl, h⟩

/-- The markup for the graph of a page: an image if there is a graph, and a note otherwise. -/
inductive Placed (function : Text) (page : Page Primitive) (there : Prop) : Text → Prop where
  | image (graph : there) : Placed function page there
      (Markup.image (Pane.imageName function page.number) (describeGraph function page))
  | missing (none : ¬ there) : Placed function page there
      (Markup.noImage (Pane.drawingName function page.step page.subStep))

/-- Whether there is a graph is settled by the world that it is looked for in. -/
theorem ensures_placeGraph_placed {function : Text} {page : Page Primitive} {u : World} :
    Ensures (· = u) (r.placeGraph function page) fun graph _ =>
      Placed function page (r.HasGraph function page u) graph := by
  refine ensures_isFile.bind fun drawn => .pointwise ?_
  rintro w ⟨found, rfl⟩
  change _ ↔ w.HasFile (r.drawing function page) at found
  cases drawn with
  | true =>
    have placed : Placed function page (r.HasGraph function page w) _ := .image (.inl (found.1 rfl))
    exact Ensures.bind (.any _) fun _ => .bind (.any _) fun _ => .pure _ fun _ _ => placed
  | false =>
    refine ensures_isFile.bind fun there => .pointwise ?_
    rintro v ⟨found', rfl⟩
    change _ ↔ v.HasFile ((r.drawing function page).withSuffix ".dot") at found'
    cases there with
    | true =>
      have placed : Placed function page (r.HasGraph function page v) _ :=
        .image (.inr (found'.1 rfl))
      exact Ensures.bind (.any _) fun _ => .bind (.any _) fun _ => .pure _ fun _ _ => placed
    | false =>
      have none : ¬ r.HasGraph function page v := by
        rintro (there | there)
        · cases found.2 there
        · cases found'.2 there
      exact Ensures.bind (.any _) fun _ => .pure _ fun _ _ => .missing none

/-- What a page is made from: the lines to highlight in the assembly and in the source code, the markup
for the graph, and the output of the decompiler. -/
structure Material where
  lines : List LineRange × List LineRange
  graph : Text
  output : Text

/-- What the run of a page finds that starts in the world `v`: first the lines, then the output of the
decompiler, and then the graph, in the world `u` in which the files before it are written. -/
structure Finds (r : Report) (f : Function) (debug : Option Function) (code : Option Text)
    (count : Nat) (page : Page Primitive) (v u : World) (found : Material) : Prop where
  lines : highlights f debug page = .ok found.lines
  output : ∃ w, perform (r.decompile f.name page.recovered) v = (.ok found.output, w) ∧
    perform (r.writeFront f code count page found.lines) w = (.ok (), u)
  graph : ∃ w, perform (r.placeGraph f.name page) u = (.ok found.graph, w)

/-- The template of a file of a page. -/
def templateName : Pane → Text
  | .overview => "overview"
  | pane => pane.word

/-- The fields of a file of a page. -/
def paneFields (r : Report) (f : Function) (code : Option Text) (count : Nat)
    (page : Page Primitive) (found : Material) : Pane → Table Json
  | .overview => r.overviewFields f.name page count code.isSome
  | .code => r.codeFields f.name (describe f.name page)
      (CodeTable.table (code.getD []) (LineRange.expand found.lines.2))
  | .assembly => r.codeFields f.name (describe f.name page)
      (CodeTable.table f.text (LineRange.expand found.lines.1))
  | .graph => graphFields f.name page found.graph
  | .decompiled => r.codeFields f.name (describeDecompiled page)
      (CodeTable.table found.output (LineRange.expand []))

/-- The bytes of a file of a page, as they are made from what was found. -/
def Renders (r : Report) (f : Function) (code : Option Text) (count : Nat) (page : Page Primitive)
    (found : Material) (pane : Pane) (bytes : Bytes) : Prop :=
  ∃ content, r.render (templateName pane) (r.paneFields f code count page found pane) =
    .ok content ∧ Utf8.encodeWide content = .ok bytes

/-- The file of a page holds what is made from what was found. -/
def Shows (w₀ : World) (r : Report) (f : Function) (code : Option Text) (count : Nat)
    (page : Page Primitive) (found : Material) (pane : Pane) (w : World) : Prop :=
  ∃ bytes, r.Renders f code count page found pane bytes ∧
    Keeps w₀ (r.pagePlace w₀.directory f.name pane page.number) (.file bytes) w

variable {f : Function} {debug : Option Function} {code : Option Text} {count : Nat}
  {page : Page Primitive} {found : Material} {pane : Pane} {v w : World}

/-- The markup for the graph says whether there is one where it is looked for. -/
theorem Finds.placed {u : World} (h : Finds r f debug code count page v u found) :
    Placed f.name page (r.HasGraph f.name page u) found.graph := by
  obtain ⟨_, ran⟩ := h.graph
  exact ensures_placeGraph_placed _ _ _ rfl ran

theorem Shows.stays (h : Shows w₀ r f code count page found pane w) : Stays w₀ w :=
  let ⟨_, _, kept⟩ := h
  kept.stays

/-- What keeps the file of a page keeps what it shows. -/
theorem preserves_shows {α : Type} {x : Action α}
    (keep : ∀ bytes, Preserves (Keeps w₀ (r.pagePlace w₀.directory f.name pane page.number)
      (.file bytes)) x) : Preserves (Shows w₀ r f code count page found pane) x := by
  rintro w ⟨bytes, rendered, kept⟩
  exact ⟨bytes, rendered, keep bytes w kept⟩

/-- A file of a page that was filled in and written is there. -/
theorem ensures_pane : Ensures (Stays w₀) (r.fill (templateName pane)
      (r.paneFields f code count page found pane) >>= r.write (pane.fileName f.name page.number))
    fun _ => Shows w₀ r f code count page found pane := by
  intro w _ w' h ran
  obtain ⟨content, filled, bytes, encoded, kept⟩ := ensures_fill_write _ _ _ w _ w' h ran
  exact ⟨bytes, ⟨content, filled, encoded⟩, kept⟩

/-- A pane with a text holds the table of the text. -/
theorem ensures_writeCode {source : Text} {lines : List LineRange} {description : WideText}
    (template : templateName pane = pane.word)
    (fields : r.paneFields f code count page found pane = r.codeFields f.name description
      (CodeTable.table source (LineRange.expand lines))) :
    Ensures (Stays w₀) (r.writeCode f.name pane page.number source lines description) fun _ =>
      Shows w₀ r f code count page found pane := by
  refine (ensures_highlighted _ _ _ _).bind ?_
  intro table
  apply Ensures.fact
  rintro rfl
  rw [← template, ← fields]
  exact ensures_pane

/-- The files of a page that were written hold what is shown in them. -/
def Done (w₀ : World) (r : Report) (f : Function) (code : Option Text) (count : Nat)
    (page : Page Primitive) (found : Material) (panes : List Pane) (w : World) : Prop :=
  Stays w₀ w ∧ ∀ pane ∈ panes, Shows w₀ r f code count page found pane w

/-- What keeps the files of a page that were written. -/
theorem preserves_done {α : Type} {x : Action α} {panes : List Pane} (stays : Preserves (Stays w₀) x)
    (keep : ∀ pane ∈ panes, ∀ bytes, Preserves (Keeps w₀
      (r.pagePlace w₀.directory f.name pane page.number) (.file bytes)) x) :
    Preserves (Done w₀ r f code count page found panes) x :=
  fun w h => ⟨stays w h.1, fun pane member => preserves_shows (keep pane member) w (h.2 pane member)⟩

/-- One more file of a page is written, and those before it are left alone. -/
theorem ensures_next {x : Action Unit} {panes : List Pane}
    (own : Ensures (Stays w₀) x fun _ => Shows w₀ r f code count page found pane)
    (keep : ∀ other ≠ pane, ∀ bytes, Preserves (Keeps w₀
      (r.pagePlace w₀.directory f.name other page.number) (.file bytes)) x)
    (new : pane ∉ panes) :
    Ensures (Done w₀ r f code count page found panes) x fun _ =>
      Done w₀ r f code count page found (pane :: panes) := by
  intro w u w' h ran
  have shows := own w u w' h.1 ran
  refine ⟨shows.stays, List.forall_mem_cons.2 ⟨shows, ?_⟩⟩
  intro other member
  have ne : other ≠ pane := fun same => new (same ▸ member)
  have kept := preserves_shows (keep other ne) w (h.2 other member)
  rwa [ran] at kept

theorem ensures_nextCode {panes : List Pane} {source : Text} {lines : List LineRange}
    {description : WideText} (template : templateName pane = pane.word)
    (fields : r.paneFields f code count page found pane = r.codeFields f.name description
      (CodeTable.table source (LineRange.expand lines))) (new : pane ∉ panes) :
    Ensures (Done w₀ r f code count page found panes)
      (r.writeCode f.name pane page.number source lines description) fun _ =>
        Done w₀ r f code count page found (pane :: panes) :=
  ensures_next (ensures_writeCode template fields)
    (fun _ ne _ => preserves_writeCode (stable_keeps _ _ _)
      fun _ => .inr (.inr (pagePlace_ne ne.symm))) new

/-- The files of a page before the graph, the last one first. -/
def frontPanes (hasCode : Bool) : List Pane :=
  if hasCode then [.assembly, .code, .overview] else [.assembly, .overview]

/-- The files before the graph hold what is shown in them once they are written. -/
theorem ensures_writeFront : Ensures (Stays w₀) (r.writeFront f code count page found.lines)
    fun _ => Done w₀ r f code count page found (frontPanes code.isSome) := by
  have first : Ensures (Done w₀ r f code count page found [])
      (r.writeOverview f.name page count code.isSome) fun _ =>
        Done w₀ r f code count page found [.overview] := by
    apply ensures_next ensures_pane _ List.not_mem_nil
    intro other ne bytes
    exact preserves_writeOverview (stable_keeps _ _ _) fun _ => .inr (.inr (pagePlace_ne ne.symm))
  refine Ensures.bind (first.mono (fun _ stays => ⟨stays, by simp⟩) fun _ _ h => h) ?_
  intro _
  cases code with
  | none => exact ensures_nextCode rfl rfl (by decide)
  | some source =>
    exact (ensures_nextCode rfl rfl (by decide)).bind fun _ => ensures_nextCode rfl rfl (by decide)

theorem files_subset_frontPanes {hasCode : Bool} (member : pane ∈ files hasCode) :
    pane ∈ .decompiled :: .graph :: frontPanes hasCode := by
  revert pane
  cases hasCode <;> decide

/-- The run of a page that succeeds finds what the page is made from, and leaves all files of the page
as they are made from that. -/
theorem ensures_explorePage (straight : "..".toList ∉ w₀.temporary)
    (draws : ∀ pane bytes, r.Draws w₀
      (.sparing (r.pagePlace w₀.directory f.name pane page.number) (.file bytes))
      (Keeps w₀ (r.pagePlace w₀.directory f.name pane page.number) (.file bytes)) f.name page)
    (stays : Stays w₀ v) :
    Ensures (· = v) (r.explorePage f debug code count page) fun _ w => ∃ u found,
      Finds r f debug code count page v u found ∧
        ∀ pane ∈ files code.isSome, Shows w₀ r f code count page found pane w := by
  intro v' _ w same ran
  obtain rfl : v = v' := same.symm
  obtain ⟨lines, highlighted, ran⟩ := perform_ofExcept_bind_iff.1 ran
  obtain ⟨output, w₁, said, ran⟩ := perform_bind_iff.1 ran
  obtain ⟨_, u, front, ran⟩ := perform_bind_iff.1 ran
  obtain ⟨_, w₃, drawn, ran⟩ := perform_bind_iff.1 ran
  obtain ⟨graph, w₂, placed, drawn⟩ := perform_bind_iff.1 drawn
  have staging : Toolchain.Staging w₀ .everything (Stays w₀) r.config r.assemblyName f.name :=
    Toolchain.staging_everything straight r.unbroken_assemblyName f.name
  refine ⟨u, ⟨lines, graph, output⟩, ⟨highlighted, ⟨w₁, said, front⟩, w₂, placed⟩, ?_⟩
  have decompiled := Ensures.of_preserves
    (Toolchain.preserves_decompile (stable_stays w₀) staging _ _) _ _ _ stays said
  have before : Done w₀ r f code count page ⟨lines, graph, output⟩ (frontPanes code.isSome) u :=
    ensures_writeFront _ _ _ decompiled front
  have keep : Preserves (Done w₀ r f code count page ⟨lines, graph, output⟩
      (frontPanes code.isSome)) (r.placeGraph f.name page) :=
    preserves_done (preserves_placeGraph (stable_stays w₀) draws_everything)
      fun pane _ bytes => preserves_placeGraph (stable_keeps _ _ _) (draws pane bytes)
  have kept := Ensures.of_preserves keep _ _ _ before placed
  have graphed : Done w₀ r f code count page ⟨lines, graph, output⟩
      (.graph :: frontPanes code.isSome) w₃ :=
    ensures_next ensures_pane (fun _ ne _ => preserves_fill_write (stable_keeps _ _ _)
      fun _ => .inr (.inr (pagePlace_ne ne.symm)))
      (by cases code.isSome <;> decide) _ _ _ kept drawn
  have all : Done w₀ r f code count page ⟨lines, graph, output⟩
      (.decompiled :: .graph :: frontPanes code.isSome) w :=
    ensures_nextCode rfl rfl (by cases code.isSome <;> decide) _ _ _ graphed ran
  exact fun pane member => all.2 pane (files_subset_frontPanes member)

end Report

end FlowReport
