import FlowReport.Proofs.Companions
import FlowReport.Proofs.Decompilation
import FlowReport.Proofs.PageRuns

/-!
# The files that a page makes

A page makes its panes, and its image if there is a graph, and no other file, as long as the programs
write what they are asked for. A step that `Writes` some files leaves what was made for them there and
all other files as they were, so steps that follow each other write the files of all of them.
-/

namespace FlowReport

open Assembly FileTree FlowReport.Action World

namespace World

/-- Programs that write what they are asked for: one that is given a directory writes only there, and
the layouter writes its image and nothing else. -/
structure Tame (w₀ : World) (layouter : Text) : Prop where
  confined : w₀.Confined
  image : ∀ call outcome image graph, call.command = [layouter, "-Tpng", "-o", image, graph] →
    call.directory = none → w₀.respond call = some outcome →
      (∀ write ∈ outcome.writes, ∃ content, write = (Path.ofText image, .file content)) ∧
        (outcome.status = 0 → outcome.writes ≠ [])

/-- Programs that write nothing but what they are asked for: one that is given a directory writes only
there, and the layouter nothing but its image. -/
structure Modest (w₀ : World) (layouter : Text) : Prop where
  confined : w₀.Confined
  image : ∀ call outcome image graph, call.command = [layouter, "-Tpng", "-o", image, graph] →
    call.directory = none → w₀.respond call = some outcome →
      ∀ write ∈ outcome.writes, ∃ content, write = (Path.ofText image, .file content)

theorem Tame.modest {w₀ : World} {layouter : Text} (tame : w₀.Tame layouter) : w₀.Modest layouter :=
  ⟨tame.confined, fun call outcome image graph command directory responds =>
    (tame.image call outcome image graph command directory responds).1⟩

/-- Programs that write nothing. -/
def Idle (w₀ : World) : Prop := ∀ call outcome, w₀.respond call = some outcome → outcome.writes = []

theorem Idle.spares {w₀ : World} (idle : w₀.Idle) (a : Address) : w₀.Spares a := by
  intro call outcome responds p content member
  rw [idle call outcome responds] at member
  exact absurd member List.not_mem_nil

theorem Idle.modest {w₀ : World} (idle : w₀.Idle) (layouter : Text) : w₀.Modest layouter where
  confined call outcome _ responds _ write member := by
    rw [idle call outcome responds] at member
    exact absurd member List.not_mem_nil
  image call outcome _ _ _ _ responds write member := by
    rw [idle call outcome responds] at member
    exact absurd member List.not_mem_nil

/-- What was written since `w₀`: the files at some addresses hold what was made for them, and all
other files are as they were. -/
structure Writes (w₀ : World) (files : Address → Prop) (made : Address → Bytes → Prop) (w : World) :
    Prop where
  written : ∀ a, files a → ∃ bytes, made a bytes ∧ w.tree.fileAt? a = some bytes
  others : ∀ a, ¬ files a → w.tree.fileAt? a = w₀.tree.fileAt? a

variable {w₀ w w' : World}

theorem Writes.trans {files files' : Address → Prop} {made made' : Address → Bytes → Prop}
    (first : Writes w₀ files made w) (second : Writes w files' made' w') :
    Writes w₀ (fun a => files a ∨ files' a) (fun a bytes => made a bytes ∨ made' a bytes) w' where
  written a listed := by
    by_cases again : files' a
    · exact (second.written a again).imp fun bytes h => ⟨.inr h.1, h.2⟩
    · obtain ⟨bytes, own, held⟩ := first.written a (listed.resolve_right again)
      exact ⟨bytes, .inl own, (second.others a again).trans held⟩
  others a listed := by
    rw [not_or] at listed
    exact (second.others a listed.2).trans (first.others a listed.1)

theorem Writes.congr {files files' : Address → Prop} {made made' : Address → Bytes → Prop}
    (h : Writes w₀ files made w) (listed : ∀ a, files' a ↔ files a)
    (more : ∀ a bytes, made a bytes → made' a bytes) : Writes w₀ files' made' w where
  written a ha := (h.written a ((listed a).1 ha)).imp fun bytes own => ⟨more a bytes own.1, own.2⟩
  others a ha := h.others a (mt (listed a).2 ha)

/-- Where the tree is the same, nothing was written. -/
theorem writes_nothing (same : w.tree = w₀.tree) :
    Writes w₀ (fun _ => False) (fun _ _ => False) w where
  written _ never := never.elim
  others a _ := by rw [same]

/-- The steps of a list write the files of all its members, each as it does where the list comes to
it. -/
theorem ensures_forM_writes {β : Type} {f : β → Action Unit} {files : β → Address → Prop}
    {made : World → β → Address → Bytes → Prop} {l : List β}
    (each : ∀ b v, Reaches f w l b v → Ensures (· = v) (f b) fun _ v' =>
      Writes v (files b) (made v b) v') :
    Ensures (· = w) (l.forM f) fun _ w' => Writes w (fun a => ∃ b ∈ l, files b a)
      (fun a bytes => ∃ b v, Reaches f w l b v ∧ made v b a bytes) w' := by
  induction l generalizing w with
  | nil => exact .pure () fun v same => (writes_nothing (same ▸ rfl)).congr (by simp) nofun
  | cons b l ih =>
    intro w₁ u w' same ran
    obtain rfl : w = w₁ := same.symm
    obtain ⟨_, mid, head, tail⟩ := perform_bind_iff.1 ran
    have own := each b w .first _ _ _ rfl head
    have rest := ih (fun c v reached => each c v (.later head reached)) _ _ _ rfl tail
    refine (own.trans rest).congr (by simp) ?_
    rintro a bytes (content | ⟨c, v, reached, content⟩)
    · exact ⟨b, w, .first, content⟩
    · exact ⟨c, v, .later head reached, content⟩

/-- Programs of which a layouter writes an image and nothing else, and a decompiler only says
something. -/
def drawingPrograms (image : Bytes) (output : Text) (call : Call) : Option Outcome := some {
  writes :=
    match call.directory, call.command[3]? with
    | none, some path => [(Path.ofText path, .file image)]
    | _, _ => []
  output }

theorem tame_of_drawing {image : Bytes} {output : Text}
    (draws : w₀.respond = drawingPrograms image output) (layouter : Text) : w₀.Tame layouter where
  confined := by
    intro call outcome d responds directory write member
    rw [draws, drawingPrograms, Option.some.injEq] at responds
    subst responds
    rw [directory] at member
    cases member
  image := by
    intro call outcome path graph command directory responds
    rw [draws, drawingPrograms, Option.some.injEq] at responds
    subst responds
    simp only [directory, command, List.getElem?_cons_succ, List.getElem?_cons_zero]
    exact ⟨fun write member => ⟨image, List.mem_singleton.1 member⟩, fun _ => List.cons_ne_nil _ _⟩

end World

namespace Toolchain

variable {w₀ : World} {config : Config} {p : Path}

/-- The files that a program may write are all one: then that file is there if there is any. -/
theorem ensures_call_file {command : List Text}
    (one : ∀ call outcome, call.command = command → call.directory = none →
      w₀.respond call = some outcome → ∀ write ∈ outcome.writes, ∃ content,
        write = (p, .file content)) :
    Ensures (Stays w₀) (call config command none) fun answer w => ∀ outcome, answer = some outcome →
      ∃ call, call.command = command ∧ call.directory = none ∧ w₀.respond call = some outcome ∧
        (outcome.writes ≠ [] → ∃ content, (p, .file content) ∈ outcome.writes ∧
          Keeps w₀ (place w₀.directory p) (.file content) w) := by
  apply Ensures.get_bind
  intro w stays
  refine Ensures.bind (Q := fun _ => Stays w₀) (.set ((stable_stays w₀).call _ stays trivial)) ?_
  intro _
  apply Ensures.ite
  · intro _
    exact .bind (Q := fun _ _ => False) (.throw _) fun _ _ _ _ never => never.elim
  intro _
  rw [stays.respond]
  split
  · exact .pure _ fun _ _ => nofun
  rename_i outcome responds
  have each := one _ outcome rfl rfl responds
  have writes : Ensures (Stays w₀) (outcome.writes.forM fun write => provide write.1 write.2)
      fun _ w => Stays w₀ w ∧ (outcome.writes ≠ [] → ∃ content,
        (p, Node.file content) ∈ outcome.writes ∧
          Keeps w₀ (place w₀.directory p) (.file content) w) := by
    refine (Ensures.forM_grow (I := fun done w => Stays w₀ w ∧ (done ≠ [] → ∃ content,
      (p, Node.file content) ∈ done ∧ Keeps w₀ (place w₀.directory p) (.file content) w)) ?_).mono
      (fun _ h => ⟨h, fun never => absurd rfl never⟩) fun _ _ h => h
    intro done write rest split
    obtain ⟨content, rfl⟩ := each write (by rw [split]; simp)
    have home : Ensures (Stays w₀) (provideDirectories p.parent) fun _ => Stays w₀ :=
      .of_preserves (preserves_provideDirectories (stable_stays w₀) fun _ _ => trivial)
    refine ((home.bind fun _ => ensures_writeBytes).mono (fun _ h => h.1) ?_)
    intro _ w kept
    exact ⟨kept.stays, fun _ => ⟨content, by simp, kept⟩⟩
  refine writes.bind fun _ => .pure _ ?_
  rintro w h _ ⟨⟩
  exact ⟨_, rfl, rfl, responds, h.2⟩

/-- A layouter that writes its image and nothing else leaves the image. -/
theorem ensures_layout {graph image : Path} (tame : w₀.Tame config.layouter)
    (written : Path.ofText image.text = image) :
    Ensures (Stays w₀) (layout config graph image) fun _ w => ∃ call outcome content,
      call.command = [config.layouter, "-Tpng", "-o", image.text, graph.text] ∧
        w₀.respond call = some outcome ∧ (image, .file content) ∈ outcome.writes ∧
          Keeps w₀ (place w₀.directory image) (.file content) w := by
  refine Ensures.bind (.of_preserves (preserves_provideDirectories (stable_stays w₀)
    fun _ _ => trivial)) ?_
  intro _
  have ran : Ensures (Stays w₀) (run config [config.layouter, "-Tpng", "-o", image.text, graph.text])
      fun _ w => ∃ call outcome content,
        call.command = [config.layouter, "-Tpng", "-o", image.text, graph.text] ∧
          w₀.respond call = some outcome ∧ (image, .file content) ∈ outcome.writes ∧
            Keeps w₀ (place w₀.directory image) (.file content) w := by
    refine Ensures.bind (.of_preserves (preserves_log (stable_stays w₀) _ _ _)) ?_
    intro _
    refine (ensures_call_file (p := image) ?_).bind ?_
    · intro call outcome command directory responds write member
      rw [← written]
      exact (tame.image call outcome _ _ command directory responds).1 write member
    intro answer
    cases answer with
    | none => exact .throw _
    | some outcome =>
      apply Ensures.ite
      · intro fine
        refine .pure _ ?_
        intro w h
        obtain ⟨call, command, directory, responds, wrote⟩ := h outcome rfl
        obtain ⟨content, member, kept⟩ :=
          wrote ((tame.image call outcome _ _ command directory responds).2 fine)
        exact ⟨call, outcome, content, command, responds, member, kept⟩
      · intro _
        extract_lets
        exact .ite (fun _ => .bind (.any _) fun _ => .throw _) fun _ => .throw _
  exact ran.bind fun _ => .pure _ fun _ h => h

end Toolchain

namespace Report

variable {w₀ w : World} {r : Report} {f : Function} {debug : Option Function} {code : Option Text}
  {count : Nat} {page : Page Primitive} {function : Text}

/-- The layouter is told where the image goes. -/
theorem ofText_image : Path.ofText (r.image function page).text = r.image function page := by
  refine Path.ofText_text (((Path.proper_ofText _).child _).child _) ?_
  obtain ⟨ending, long, unbroken, -, name⟩ := imageName_eq function page.number
  show (Path.append (r.output.child "img") (Path.ofText _)).names ≠ []
  rw [name, Path.ofText_append long unbroken, Path.append, Path.child_name (by decide) (by decide)]
  split <;> simp

section Stable

variable {s : Scope} {I : World → Prop}

/-- A modest layouter writes the image of the page, and makes the directories above it. -/
theorem draws_of_modest (modest : w₀.Modest r.config.layouter)
    (image : (∃ w, I w ∧ r.HasGraph function page w) → ∀ bytes,
      s.puts (r.imagePlace w₀.directory function page.number) (.file bytes))
    (makes : s.Makes w₀.directory (r.image function page).parent) (calls : ∀ call, s.calls call) :
    r.Draws w₀ s I function page where
  image := image
  layouter graph := by
    refine ⟨makes, ?_⟩
    intro dot call command directory
    refine ⟨calls call, ?_⟩
    intro outcome responds write member
    obtain ⟨content, rfl⟩ := modest.image call outcome _ _ command directory responds write member
    rw [ofText_image]
    exact ⟨makes, image graph content⟩

/-- Where directories may be made anywhere, the image is all that counts. -/
theorem draws_of_image (modest : w₀.Modest r.config.layouter)
    (image : (∃ w, I w ∧ r.HasGraph function page w) → ∀ bytes,
      s.puts (r.imagePlace w₀.directory function page.number) (.file bytes))
    (directories : ∀ b, s.puts b .directory) (calls : ∀ call, s.calls call) :
    r.Draws w₀ s I function page :=
  draws_of_modest modest image (fun _ _ => directories _) calls

/-- All that a page does is within the scope if its files are, where the programs are modest. -/
theorem admits_of_modest {hasCode : Bool} (modest : w₀.Modest r.config.layouter)
    (straight : "..".toList ∉ w₀.temporary) (plain : '/' ∉ function)
    (panes : ∀ pane ∈ files hasCode, ∀ bytes,
      s.puts (r.pagePlace w₀.directory function pane page.number) (.file bytes))
    (image : (∃ w, I w ∧ r.HasGraph function page w) → ∀ bytes,
      s.puts (r.imagePlace w₀.directory function page.number) (.file bytes))
    (directories : ∀ b, s.puts b .directory) (calls : ∀ call, s.calls call) :
    r.Admits w₀ s I function hasCode page where
  toDraws := draws_of_image modest image directories calls
  panes := panes
  decompiler := Toolchain.staging_confined modest.confined straight r.unbroken_assemblyName
    (Path.inner_above_of_unbroken plain 1) (fun b _ => directories b) fun call _ _ _ _ => calls call

end Stable

/-- The world of a report that is being made since `w₀`: nothing has changed outside the directory of
its pages, and that directory can be entered. -/
structure Grounded (w₀ : World) (r : Report) (w : World) : Prop where
  left : Leaves w₀ (r.Outside w₀.directory) w
  entered : w.tree.Entered w₀.directory r.output

theorem stable_grounded (w₀ : World) (r : Report) :
    Stable w₀ (.avoiding w₀ (r.Outside w₀.directory)) (Grounded w₀ r) := by
  have left := stable_leaves w₀ (r.Outside w₀.directory)
  have entered := stable_entered w₀ r.output
  exact {
    stays := fun h => h.left.rests.stays
    log := fun lines h => ⟨left.log lines h.left, h.entered⟩
    call := fun c h allowed => ⟨left.call c h.left allowed, h.entered⟩
    put := fun h allowed accepts =>
      ⟨left.put h.left allowed accepts, (entered.put ⟨h.left.rests, h.entered⟩ trivial accepts).2⟩
    clear := fun h free =>
      ⟨left.clear h.left free, (entered.clear ⟨h.left.rests, h.entered⟩ free).2⟩ }

/-- The files of the graphs are still the same. -/
theorem Grounded.read_graphs (start : Grounded w₀ r w₀) (now : Grounded w₀ r w) {s : Text}
    (plain : '/' ∉ s) (long : 2 < s.length) (content : Bytes) :
    w.tree.read w.directory (r.graphs.child s) = .ok content ↔
      w₀.tree.read w₀.directory (r.graphs.child s) = .ok content := by
  have same := now.left.left _ (outside_graphs (r := r) plain long)
  have output : r.output = ⟨_, _ ++ [_]⟩ := companion_eq (by decide) (by decide) r.path
  have entered := start.entered
  have entered' := now.entered
  rw [output] at entered entered'
  rw [now.left.rests.stays.directory]
  rw [graphs_child plain (by omega)] at same ⊢
  constructor
  · exact read_beside entered start.left.rests.closed (ne_up_of_long long) same.symm
  · exact read_beside entered' now.left.rests.closed (ne_up_of_long long) same

theorem Grounded.hasFile_graphs (start : Grounded w₀ r w₀) (now : Grounded w₀ r w) {s : Text}
    (plain : '/' ∉ s) (long : 2 < s.length) :
    w.HasFile (r.graphs.child s) ↔ w₀.HasFile (r.graphs.child s) := by
  rw [hasFile_iff, hasFile_iff]
  exact and_congr_right fun _ => exists_congr fun content => start.read_graphs now plain long content

/-- A file of the graph of a page, by its ending. -/
def graphFile (r : Report) (function : Text) (page : Page Primitive) (ending : Text) : Path :=
  r.graphs.child (Pane.graphName function page.step page.subStep ++ ending)

theorem drawing_eq : r.drawing function page = r.graphFile function page ".png" := by
  rw [drawing, Pane.drawingName_eq]
  rfl

theorem unbroken_graphFile (plain : '/' ∉ function) {ending : Text} (unbroken : '/' ∉ ending) :
    '/' ∉ Pane.graphName function page.step page.subStep ++ ending := by
  rw [List.mem_append, not_or]
  exact ⟨Pane.unbroken_graphName plain _ _, unbroken⟩

/-- The graph that is not drawn has the name of the drawn one, with the other ending. -/
theorem withSuffix_drawing (plain : '/' ∉ function) (named : function ≠ []) :
    (r.drawing function page).withSuffix ".dot" = r.graphFile function page ".dot" := by
  have long : ∀ ending : Text, 3 < ending.length →
      1 < (Pane.graphName function page.step page.subStep ++ ending).length := by
    intro ending long
    rw [List.length_append]
    omega
  rw [drawing_eq, graphFile, graphFile,
    graphs_child (unbroken_graphFile plain (by decide)) (long _ (by decide)),
    graphs_child (unbroken_graphFile plain (by decide)) (long _ (by decide))]
  rw [Path.withSuffix, if_neg (by simp), Path.stem, Path.name]
  have stem := Path.splitName_png (Pane.graphName_ne_nil named page.step page.subStep)
  simp only [List.getLast?_append, List.getLast?_cons_cons, List.getLast?_singleton, Option.some_or,
    Option.getD_some, stem]
  rw [List.dropLast_append_of_ne_nil (by simp), List.append_assoc]
  rfl

/-- A copy holds what was read. -/
theorem ensures_copyFile {source target : Path} (stays : Stays w₀ w) :
    Ensures (· = w) (copyFile source target) fun _ w' => ∃ bytes,
      w.tree.read w.directory source = .ok bytes ∧
        Keeps w₀ (place w₀.directory target) (.file bytes) w' := by
  rintro _ u w' rfl ran
  obtain ⟨bytes, mid, read, wrote⟩ := perform_bind_iff.1 ran
  rw [perform_readBytes] at read
  obtain ⟨read, rfl⟩ := Prod.mk.inj read
  refine ⟨bytes, ?_, ensures_writeBytes _ _ _ stays wrote⟩
  split at read
  · cases read
  · cases there : FileTree.read _ _ source with
    | error fault => rw [there] at read; cases read
    | ok content => rw [there] at read; cases read; rfl

/-- There is a graph for a page, drawn or not. -/
def Graphed (r : Report) (function : Text) (page : Page Primitive) (w : World) : Prop :=
  w.HasFile (r.graphFile function page ".png") ∨ w.HasFile (r.graphFile function page ".dot")

theorem Grounded.hasFile_graphFile (start : Grounded w₀ r w₀) (now : Grounded w₀ r w)
    (plain : '/' ∉ function) {ending : Text} (unbroken : '/' ∉ ending) (long : 2 < ending.length) :
    w.HasFile (r.graphFile function page ending) ↔ w₀.HasFile (r.graphFile function page ending) :=
  start.hasFile_graphs now (unbroken_graphFile plain unbroken)
    (by rw [List.length_append]; omega)

theorem Grounded.hasGraph (start : Grounded w₀ r w₀) (now : Grounded w₀ r w)
    (plain : '/' ∉ function) (named : function ≠ []) :
    r.HasGraph function page w ↔ r.Graphed function page w₀ := by
  rw [HasGraph, withSuffix_drawing plain named, drawing_eq]
  exact or_congr (start.hasFile_graphFile now plain (by decide) (by decide))
    (start.hasFile_graphFile now plain (by decide) (by decide))

/-- What the image on a page is: the drawn graph, or else what the layouter made of the graph that
is not drawn. -/
inductive Picture (w₀ : World) (r : Report) (function : Text) (page : Page Primitive)
    (bytes : Bytes) : Prop where
  | drawn (there : w₀.HasFile (r.graphFile function page ".png"))
      (read : w₀.tree.read w₀.directory (r.graphFile function page ".png") = .ok bytes)
  | laidOut {call : Call} {outcome : Outcome}
      (missing : ¬ w₀.HasFile (r.graphFile function page ".png"))
      (there : w₀.HasFile (r.graphFile function page ".dot"))
      (asked : call.command = [r.config.layouter, "-Tpng", "-o", (r.image function page).text,
        (r.graphFile function page ".dot").text])
      (answered : w₀.respond call = some outcome)
      (written : (r.image function page, .file bytes) ∈ outcome.writes)

/-- The image of a page is there if there is a graph. -/
def Pictured (w₀ : World) (r : Report) (function : Text) (page : Page Primitive) (w : World) :
    Prop :=
  r.Graphed function page w₀ → ∃ bytes, Picture w₀ r function page bytes ∧
    Keeps w₀ (r.imagePlace w₀.directory function page.number) (.file bytes) w

/-- The graph of a page, if there is one, is made into its image. -/
theorem ensures_placeGraph (tame : w₀.Tame r.config.layouter) (start : Grounded w₀ r w₀)
    (plain : '/' ∉ function) (named : function ≠ []) :
    Ensures (Grounded w₀ r) (r.placeGraph function page) fun _ => Pictured w₀ r function page := by
  have logged : ∀ level topic message, Ensures (Grounded w₀ r) (log level topic message)
      fun _ => Grounded w₀ r :=
    fun _ _ _ => .of_preserves (preserves_log (stable_grounded w₀ r) _ _ _)
  refine ensures_isFile.bind fun drawn => .pointwise ?_
  rintro w ⟨found, now⟩
  change _ ↔ w.HasFile (r.drawing function page) at found
  rw [drawing_eq, start.hasFile_graphFile now plain (by decide) (by decide)] at found
  cases drawn with
  | true =>
    refine Ensures.bind ((logged _ _ _).from_world now) fun _ => .pointwise ?_
    intro v now
    refine (ensures_copyFile now.left.rests.stays).bind fun _ => .pure _ ?_
    rintro v' ⟨bytes, read, kept⟩
    change v.tree.read v.directory (r.drawing function page) = _ at read
    rw [drawing_eq, graphFile, start.read_graphs now
      (unbroken_graphFile plain (by decide)) (by simp)] at read
    exact fun _ => ⟨bytes, .drawn (found.1 rfl) read, kept⟩
  | false =>
    have missing : ¬ w₀.HasFile (r.graphFile function page ".png") := by
      intro there
      cases found.2 there
    refine (ensures_isFile.from_world now).bind fun there => .pointwise ?_
    rintro v ⟨found, now⟩
    change _ ↔ v.HasFile ((r.drawing function page).withSuffix ".dot") at found
    rw [withSuffix_drawing plain named,
      start.hasFile_graphFile now plain (by decide) (by decide)] at found
    cases there with
    | true =>
      refine Ensures.bind ((logged _ _ _).from_world now) fun _ => .pointwise ?_
      intro u now
      refine ((Toolchain.ensures_layout tame ofText_image).from_world
        now.left.rests.stays).bind fun _ => .pure _ ?_
      rintro u' ⟨call, outcome, content, asked, answered, written, kept⟩
      have asked : call.command = [r.config.layouter, "-Tpng", "-o",
          (r.image function page).text, ((r.drawing function page).withSuffix ".dot").text] := asked
      rw [withSuffix_drawing plain named] at asked
      exact fun _ => ⟨content, .laidOut missing (found.1 rfl) asked answered written, kept⟩
    | false =>
      have neither : ¬ r.Graphed function page w₀ := by
        rintro (there | there)
        · exact missing there
        · cases found.2 there
      exact Ensures.bind (.any _) fun _ => .pure _ fun _ _ graphed => absurd graphed neither

theorem imagePlace_ne_pagePlace (start : Address) (g : Text) (p : Nat) (pane : Pane) (q : Nat) :
    r.imagePlace start function p ≠ r.pagePlace start g pane q := by
  intro same
  have last := lastChar_pagePlace r start g pane q
  rw [← same, imagePlace, lastChar_imagePlace] at last
  exact absurd last (by decide)

/-- What keeps the image of a page keeps it whatever it is. -/
theorem preserves_pictured {α : Type} {x : Action α} (keep : ∀ bytes, Preserves
    (Keeps w₀ (r.imagePlace w₀.directory function page.number) (.file bytes)) x) :
    Preserves (Pictured w₀ r function page) x := by
  intro w pictured graphed
  obtain ⟨bytes, picture, kept⟩ := pictured graphed
  exact ⟨bytes, picture, keep bytes w kept⟩

/-- The image of a page, once its pane is written. -/
theorem ensures_writeGraph_pictured (tame : w₀.Tame r.config.layouter) (start : Grounded w₀ r w₀)
    (plain : '/' ∉ function) (named : function ≠ []) :
    Ensures (Grounded w₀ r) (r.writeGraph function page) fun _ => Pictured w₀ r function page :=
  (ensures_placeGraph tame start plain named).bind fun _ =>
    .of_preserves (preserves_pictured fun _ => preserves_fill_write (stable_keeps _ _ _)
      fun _ => .inr (.inr (imagePlace_ne_pagePlace _ _ _ _ _).symm))

/-- A file of a page, or what is made for it, is inside the directory of the pages. -/
theorem puts_pagePlace (plain : '/' ∉ function) (pane : Pane) (bytes : Bytes) :
    (Scope.avoiding w₀ (r.Outside w₀.directory)).puts
      (r.pagePlace w₀.directory function pane page.number) (.file bytes) :=
  .inl fun outside => outside (place_output_pagePlace (Path.inner_above_of_unbroken plain 0) pane _)

/-- The image of a page is there when the page is written. -/
theorem ensures_writePage_pictured {lines : List LineRange × List LineRange} {output : Text}
    (tame : w₀.Tame r.config.layouter) (start : Grounded w₀ r w₀) (plain : '/' ∉ f.name)
    (named : f.name ≠ []) :
    Ensures (Grounded w₀ r) (r.writePage f code count page lines output) fun _ =>
      Pictured w₀ r f.name page := by
  refine Ensures.bind (.of_preserves (preserves_writeFront (stable_grounded w₀ r)
    fun pane _ => puts_pagePlace plain pane)) fun _ => ?_
  refine (ensures_writeGraph_pictured tame start plain named).bind fun _ => ?_
  exact .of_preserves (preserves_pictured fun _ => preserves_writeCode (stable_keeps _ _ _)
    fun _ => .inr (.inr (imagePlace_ne_pagePlace _ _ _ _ _).symm))

/-- The files of a page: its panes, and its image if there is a graph. -/
inductive PageFile (w₀ : World) (r : Report) (function : Text) (hasCode : Bool)
    (page : Page Primitive) : Address → Prop where
  | pane {pane : Pane} (member : pane ∈ files hasCode) :
      PageFile w₀ r function hasCode page (r.pagePlace w₀.directory function pane page.number)
  | image (graphed : r.Graphed function page w₀) :
      PageFile w₀ r function hasCode page (r.imagePlace w₀.directory function page.number)

/-- What is made for a file of a page by a run of the page that starts in the world `v`: a pane is made
from what the run finds, and shows the image if there is a graph. -/
inductive PageContent (w₀ : World) (r : Report) (f : Function) (debug : Option Function)
    (code : Option Text) (count : Nat) (page : Page Primitive) (v : World) :
    Address → Bytes → Prop where
  | pane {pane : Pane} {u : World} {found : Material} {bytes : Bytes}
      (finds : Finds r f debug code count page v u found)
      (placed : Placed f.name page (r.Graphed f.name page w₀) found.graph)
      (rendered : r.Renders f code count page found pane bytes) :
      PageContent w₀ r f debug code count page v
        (r.pagePlace w₀.directory f.name pane page.number) bytes
  | image {bytes : Bytes} (picture : Picture w₀ r f.name page bytes) :
      PageContent w₀ r f debug code count page v
        (r.imagePlace w₀.directory f.name page.number) bytes

/-- All that a page does leaves the graphs as they are. -/
theorem preserves_explorePage_grounded (modest : w₀.Modest r.config.layouter)
    (straight : "..".toList ∉ w₀.temporary) (plain : '/' ∉ f.name) :
    Preserves (Grounded w₀ r) (r.explorePage f debug code count page) :=
  preserves_explorePage (stable_grounded w₀ r) (admits_of_modest modest straight plain
    (fun pane _ => puts_pagePlace plain pane)
    (fun _ _ => .inl fun outside =>
      outside (place_output_imagePlace (Path.inner_above_of_unbroken plain 1) _))
    (fun _ => .inr (.inl rfl)) fun _ => trivial)

/-- A page leaves what is not one of its files. -/
theorem preserves_explorePage_files (modest : w₀.Modest r.config.layouter)
    (start : Grounded w₀ r w₀) (straight : "..".toList ∉ w₀.temporary) (plain : '/' ∉ f.name)
    (named : f.name ≠ []) (now : Grounded w₀ r w) :
    Preserves (fun v => Leaves w (fun a => ¬ PageFile w₀ r f.name code.isSome page a) v ∧
      Grounded w₀ r v) (r.explorePage f debug code count page) := by
  have stays := now.left.rests.stays
  have stable := ((stable_leaves w fun a => ¬ PageFile w₀ r f.name code.isSome page a).since
    stays).and (stable_grounded w₀ r)
  refine preserves_explorePage stable (admits_of_modest modest straight plain ?_ ?_ ?_ fun _ =>
    ⟨trivial, trivial⟩)
  · intro pane member bytes
    exact ⟨.inl (not_not.2 (.pane member)), puts_pagePlace plain pane bytes⟩
  · rintro ⟨v, ⟨-, here⟩, graph⟩ bytes
    exact ⟨.inl (not_not.2 (.image ((start.hasGraph here plain named).1 graph))),
      .inl fun outside =>
        outside (place_output_imagePlace (Path.inner_above_of_unbroken plain 1) _)⟩
  · intro b
    exact ⟨.inr (.inl rfl), .inr (.inl rfl)⟩

/-- The decompiler leaves the graphs as they are. -/
theorem preserves_decompile_grounded (modest : w₀.Modest r.config.layouter)
    (straight : "..".toList ∉ w₀.temporary) (plain : '/' ∉ function) (prims : List Primitive) :
    Preserves (Grounded w₀ r) (r.decompile function prims) :=
  Toolchain.preserves_decompile (stable_grounded w₀ r)
    (Toolchain.staging_confined modest.confined straight r.unbroken_assemblyName
      (Path.inner_above_of_unbroken plain 1) (fun _ _ => .inr (.inl rfl))
      fun _ _ _ _ _ => trivial) _ _

/-- What a page finds is found where the graphs are still those from before the run. -/
theorem Finds.grounded {u : World} {found : Material}
    (finds : Finds r f debug code count page w u found) (modest : w₀.Modest r.config.layouter)
    (straight : "..".toList ∉ w₀.temporary) (plain : '/' ∉ f.name) (now : Grounded w₀ r w) :
    Grounded w₀ r u := by
  obtain ⟨w₁, said, front⟩ := finds.output
  have behind := Ensures.of_preserves (preserves_decompile_grounded modest straight plain _)
    _ _ _ now said
  exact Ensures.of_preserves (preserves_writeFront (stable_grounded w₀ r)
    fun pane _ => puts_pagePlace plain pane) _ _ _ behind front

/-- The graph that a page finds is that from before the run. -/
theorem Finds.placed_before {u : World} {found : Material}
    (finds : Finds r f debug code count page w u found) (modest : w₀.Modest r.config.layouter)
    (start : Grounded w₀ r w₀) (straight : "..".toList ∉ w₀.temporary) (plain : '/' ∉ f.name)
    (named : f.name ≠ []) (now : Grounded w₀ r w) :
    Placed f.name page (r.Graphed f.name page w₀) found.graph := by
  have here := finds.grounded modest straight plain now
  rw [← start.hasGraph here plain named]
  exact finds.placed

/-- The run of a page that succeeds leaves its panes, whatever the name of the function is. -/
theorem ensures_explorePage_shows (modest : w₀.Modest r.config.layouter)
    (straight : "..".toList ∉ w₀.temporary) (stays : Stays w₀ w) :
    Ensures (· = w) (r.explorePage f debug code count page) fun _ w' => ∃ u found,
      Finds r f debug code count page w u found ∧
        ∀ pane ∈ files code.isSome, Shows w₀ r f code count page found pane w' := by
  apply ensures_explorePage straight _ stays
  intro pane bytes
  exact draws_of_image modest
    (fun _ _ => .inr (.inr (imagePlace_ne_pagePlace _ _ _ _ _))) (fun _ => .inr (.inl rfl))
    fun _ => trivial

/-- The run of a page that succeeds leaves its image, if there is a graph. -/
theorem ensures_explorePage_pictured (tame : w₀.Tame r.config.layouter) (start : Grounded w₀ r w₀)
    (straight : "..".toList ∉ w₀.temporary) (plain : '/' ∉ f.name) (named : f.name ≠ []) :
    Ensures (Grounded w₀ r) (r.explorePage f debug code count page) fun _ =>
      Pictured w₀ r f.name page := by
  refine Ensures.bind (.of_preserves (.ofExcept _)) fun _ => ?_
  refine Ensures.bind (.of_preserves
    (preserves_decompile_grounded tame.modest straight plain _)) fun _ => ?_
  exact ensures_writePage_pictured tame start plain named

/-- The run of a page that succeeds writes its files. -/
theorem ensures_explorePage_files (tame : w₀.Tame r.config.layouter) (start : Grounded w₀ r w₀)
    (straight : "..".toList ∉ w₀.temporary) (plain : '/' ∉ f.name) (named : f.name ≠ [])
    (now : Grounded w₀ r w) :
    Ensures (· = w) (r.explorePage f debug code count page) fun _ w' =>
      Writes w (PageFile w₀ r f.name code.isSome page)
        (PageContent w₀ r f debug code count page w) w' := by
  have leaves : Leaves w (fun a => ¬ PageFile w₀ r f.name code.isSome page a) w :=
    ⟨(now.left.rests.settled straight).rests, fun _ _ => rfl⟩
  have keep : Preserves (fun v => Leaves w (fun a => ¬ PageFile w₀ r f.name code.isSome page a) v ∧
      Grounded w₀ r v) (r.explorePage f debug code count page) :=
    preserves_explorePage_files tame.modest start straight plain named now
  have kept := (Ensures.of_preserves keep).from_world ⟨leaves, now⟩
  refine ((kept.and (ensures_explorePage_shows tame.modest straight now.left.rests.stays)).and
    ((ensures_explorePage_pictured tame start straight plain named).from_world now)).mono
      (fun _ h => h) ?_
  rintro _ w' ⟨⟨⟨left, -⟩, u, found, finds, shows⟩, pictured⟩
  refine ⟨?_, fun a other => left.left a other⟩
  intro a file
  cases file with
  | pane member =>
    obtain ⟨bytes, rendered, kept⟩ := shows _ member
    exact ⟨bytes, .pane finds (finds.placed_before tame.modest start straight plain named now) rendered,
      fileAt?_eq_some_iff.2 kept.kept.node⟩
  | image graphed =>
    obtain ⟨bytes, picture, kept⟩ := pictured graphed
    exact ⟨bytes, .image picture, fileAt?_eq_some_iff.2 kept.kept.node⟩

/-- Where a file of the report can be written, the directory of the pages can be entered. -/
theorem entered_of_write {t : FileTree} {name : Text} {content : WideText} (plain : '/' ∉ name)
    (long : 1 < name.length) : Ensures (Still w₀ t) (r.write name content) fun _ _ =>
      t.Entered w₀.directory r.output := by
  have bytes : ∀ content, Ensures (Still w₀ t) (writeBytes (r.output.child name) content)
      fun _ _ => t.Entered w₀.directory r.output := by
    intro content w u w' still ran
    obtain ⟨_, written, -⟩ := perform_writeBytes ran
    rw [still.same, still.rests.stays.directory, Path.child_name plain long] at written
    exact (FileTree.entered_of_write written).parent
  refine Ensures.bind (.of_preserves (preserves_log (stable_still w₀ t) _ _ _)) fun _ => ?_
  unfold writeWide
  split
  · exact bytes _
  · exact (bytes _).bind fun _ => .throw _

/-- Where a page can be made, the directory of the pages can be entered. -/
theorem entered_of_explorePage {t : FileTree} (confined : w₀.Confined)
    (straight : "..".toList ∉ w₀.temporary) (plain : '/' ∉ f.name) :
    Ensures (Still w₀ t) (r.explorePage f debug code count page) fun _ _ =>
      t.Entered w₀.directory r.output := by
  refine Ensures.bind (.of_preserves (.ofExcept _)) fun _ => ?_
  have staging : Toolchain.Staging w₀ ⟨fun b _ => b <+: w₀.temporary, fun _ => True⟩ (Still w₀ t)
      r.config r.assemblyName f.name :=
    Toolchain.staging_confined confined straight r.unbroken_assemblyName
      (Path.inner_above_of_unbroken plain 1) (fun _ => id) fun _ _ _ _ _ => trivial
  refine Ensures.bind (.of_preserves (Toolchain.preserves_decompile (stable_still w₀ t) staging
    _ _)) fun _ => ?_
  -- the overview is written first, and what comes behind it does not matter
  refine Ensures.bind (Q := fun _ _ => t.Entered w₀.directory r.output) ?_ fun _ w _ w' h _ => h
  refine Ensures.bind (Q := fun _ _ => t.Entered w₀.directory r.output) ?_ fun _ w _ w' h _ => h
  have ending := length_ending .overview page.number
  refine Ensures.bind (.of_preserves (.ofExcept _)) fun _ => entered_of_write ?_ ?_
  · rw [Pane.fileName_eq, List.append_assoc, List.mem_append, not_or]
    exact ⟨plain, unbroken_ending _ _⟩
  · rw [Pane.fileName_eq, List.append_assoc, List.length_append]
    omega

end Report

end FlowReport
