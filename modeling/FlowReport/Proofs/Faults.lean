import FlowReport.Proofs.Runs
import FlowReport.Proofs.Tables
import FlowReport.Report.Explore

/-!
# Faults

What stops a step that makes a page, apart from a name that is not found: a file that cannot be read
or written, or a program that fails. The templates that come with the library can always be filled
in, since each of them has only fields that its pages give.
-/

namespace FlowReport

open Assembly FlowReport.Action

/-- Something went wrong with a file or with a program. -/
def Error.IsFault : Error → Prop
  | file _ _ | nullInPath | surrogates _ | tool _ => True
  | _ => False

instance : DecidablePred Error.IsFault := fun e => by
  cases e <;> first | exact .isTrue trivial | exact .isFalse id

/-- The result is no fault. -/
def Faultless (result : Except Error Unit) : Prop := ∀ e, result = .error e → ¬ e.IsFault

instance : DecidablePred Faultless
  | .ok _ => .isTrue nofun
  | .error e => decidable_of_iff (¬ e.IsFault)
    ⟨fun fine _ same => Except.error.inj same ▸ fine, fun fine => fine e rfl⟩

namespace Template

/-- The piece can be filled in from fields with these keys. -/
def Piece.Fits (keys : List Text) : Piece → Prop
  | field _ name => name ∈ keys
  | mistake => False
  | _ => True

instance (keys : List Text) : DecidablePred (Piece.Fits keys)
  | .field _ name => inferInstanceAs (Decidable (name ∈ keys))
  | .mistake => inferInstanceAs (Decidable False)
  | .char _ => inferInstanceAs (Decidable True)
  | .dollar => inferInstanceAs (Decidable True)

/-- The template can be filled in from fields with these keys. -/
def Fits (keys : List Text) (template : Text) : Prop :=
  ∀ piece ∈ Piece.ofText template, piece.Fits keys

instance (keys : List Text) (template : Text) : Decidable (Fits keys template) :=
  inferInstanceAs (Decidable (∀ _ ∈ _, _))

theorem exists_fillPieces {fields : Table WideText} {pieces : List Piece}
    (fits : ∀ piece ∈ pieces, piece.Fits (fields.map (·.1))) :
    ∃ page, fillPieces fields pieces = .ok page := by
  induction pieces with
  | nil => exact ⟨_, rfl⟩
  | cons piece behind ih =>
    obtain ⟨head, tail⟩ := List.forall_mem_cons.1 fits
    obtain ⟨page, filled⟩ := ih tail
    have text : ∃ text, pieceText fields behind piece = .ok text := by
      cases piece with
      | char c => exact ⟨_, rfl⟩
      | dollar => exact ⟨_, rfl⟩
      | mistake => exact head.elim
      | field braced name =>
        obtain ⟨value, there⟩ :=
          Option.ne_none_iff_exists'.1 (mt Table.get?_eq_none_iff.1 (not_not.2 head))
        exact ⟨value, by simp only [pieceText, there]⟩
    obtain ⟨text, made⟩ := text
    exact ⟨text ++ page, by simp only [fillPieces, made, filled]; rfl⟩

/-- A template that fits its fields is filled in. -/
theorem exists_fill {fields : Table Json} {template : Text}
    (fits : Fits (fields.map (·.1)) template) :
    ∃ page, fill (fieldTexts fields) template = .ok page := by
  apply exists_fillPieces
  rw [fieldTexts, List.map_map]
  exact fits

end Template

namespace Report

variable {r : Report}

/-- A page is made of its fields if the template is there and fits them. -/
theorem exists_render {templates : Templates} (ready : r.templates = some templates)
    {name template : Text} {fields : Table Json} (there : templates.get? name = some template)
    (fits : Template.Fits (fields.map (·.1)) template) : ∃ page, r.render name fields = .ok page := by
  obtain ⟨page, filled⟩ := Template.exists_fill fits
  refine ⟨page, ?_⟩
  simp only [render, ready, Templates.render, there, filled]

theorem exists_render_overview (ready : r.templates = some Templates.shipped) (function : Text)
    (page : Page Primitive) (count : Nat) (hasCode : Bool) :
    ∃ content, r.render "overview" (r.overviewFields function page count hasCode) = .ok content := by
  have fits : Template.Fits ["func_name", "ll_name", "cur_page", "npages", "step", "sub_step", "desc",
      "styles_html", "pages_html", "frames_html"] Source.overview := by
    simp only [Source.overview, Source.text, List.flatMap_cons, List.flatMap_nil]
    repeat rw [String.toList_ofList]
    decide +kernel
  exact exists_render ready rfl fits

theorem exists_render_graph (ready : r.templates = some Templates.shipped) (function : Text)
    (page : Page Primitive) (graph : Text) :
    ∃ content, r.render Pane.graph.word (graphFields function page graph) = .ok content := by
  have fits : Template.Fits ["func_name", "step", "sub_step", "desc", "graph_html"] Source.graph := by
    simp only [Source.graph, Source.text, List.flatMap_cons, List.flatMap_nil]
    repeat rw [String.toList_ofList]
    decide +kernel
  exact exists_render ready rfl fits

/-- The panes that show a text have the same fields. -/
theorem exists_render_code (ready : r.templates = some Templates.shipped) {pane : Pane}
    (shown : pane = .code ∨ pane = .assembly ∨ pane = .decompiled) (function : Text)
    (description : WideText) (code : Text) :
    ∃ content, r.render pane.word (r.codeFields function description code) = .ok content := by
  have fits : ∀ template ∈ [Source.code, Source.assembly, Source.decompiled],
      Template.Fits ["func_name", "style", "desc", "code_html"] template := by
    simp only [Source.code, Source.assembly, Source.decompiled, Source.text, List.flatMap_cons,
      List.flatMap_nil]
    repeat rw [String.toList_ofList]
    decide +kernel
  rcases shown with rfl | rfl | rfl
  · exact exists_render ready rfl (fits Source.code (by simp))
  · exact exists_render ready rfl (fits Source.assembly (by simp))
  · exact exists_render ready rfl (fits Source.decompiled (by simp))

end Report

/-! ## The steps -/

/-- The action stops for a fault or not at all. -/
abbrev Action.Faulty {α : Type} (x : Action α) : Prop := Raises Error.IsFault x

namespace Action

variable {p : Path} {content : Bytes}

theorem faulty_log (level : Level) (topic : Topic) (message : Text) :
    Faulty (log level topic message) := .modify _

theorem faulty_checkNull : Faulty (checkNull p) := .ite (fun _ => .throw trivial) fun _ => .pure _

theorem faulty_isFile : Faulty (isFile p) := by
  have looked : Faulty (look p) := by
    refine .ite (fun _ => .pure _) fun _ => .get_bind fun w => ?_
    split
    · exact .pure _
    · exact .throw trivial
  refine looked.bind fun found => ?_
  split <;> exact .pure _

theorem faulty_readBytes : Faulty (readBytes p) := by
  refine faulty_checkNull.bind fun _ => .get_bind fun w => ?_
  split
  · exact .pure _
  · exact .throw trivial

theorem faulty_writeBytes : Faulty (writeBytes p content) := by
  refine faulty_checkNull.bind fun _ => .get_bind fun w => ?_
  unfold commit
  split
  · exact .modify _
  · exact .throw trivial

theorem faulty_writeWide {s : WideText} : Faulty (writeWide p s) := by
  unfold writeWide
  split
  · exact faulty_writeBytes
  · exact faulty_writeBytes.bind fun _ => .throw trivial

theorem faulty_copyFile {source : Path} : Faulty (copyFile source p) :=
  faulty_readBytes.bind fun _ => faulty_writeBytes

theorem faulty_provideDirectories : Faulty (provideDirectories p) := by
  refine faulty_checkNull.bind fun _ => .get_bind fun w => ?_
  extract_lets
  rcases w.tree.provideDirectories w.directory p with ⟨t, stopped⟩
  refine Raises.bind (.set _) fun _ => ?_
  cases stopped with
  | none => exact .pure _
  | some stop => exact .throw trivial

theorem faulty_provide {node : Node} : Faulty (provide p node) := by
  cases node with
  | directory => exact faulty_provideDirectories
  | file content => exact faulty_provideDirectories.bind fun _ => faulty_writeBytes

theorem faulty_withDirectory {α : Type} {f : Path → Action α} (inside : ∀ d, Faulty (f d)) :
    Faulty (withDirectory f) := by
  intro w e w' ran
  rw [perform_withDirectory] at ran
  exact inside _ _ e _ (Prod.ext (Prod.mk.inj ran).1 rfl)

end Action

namespace Toolchain

variable {config : Config}

theorem faulty_run {command : List Text} (nonempty : command ≠ []) (directory : Option Path) :
    Faulty (run config command directory) := by
  have called : Faulty (call config command directory) := by
    refine .get_bind fun w => ?_
    refine Raises.bind (.set _) fun _ => .ite (fun none => ?_) fun _ => ?_
    · exact absurd (List.isEmpty_iff.1 none) nonempty
    · split
      · exact .pure _
      · exact Raises.bind (.forM fun _ _ => faulty_provide) fun _ => .pure _
  refine (faulty_log _ _ _).bind fun _ => called.bind fun answer => ?_
  cases answer with
  | none => exact .throw trivial
  | some outcome =>
    refine .ite (fun _ => .pure _) fun _ => ?_
    extract_lets
    exact .ite (fun _ => (faulty_log _ _ _).bind fun _ => .throw trivial) fun _ => .throw trivial

theorem faulty_decompile (assemblyName assembly function : Text) (prims : List Primitive) :
    Faulty (decompile config assemblyName assembly function prims) := by
  refine faulty_withDirectory fun d => faulty_writeBytes.bind fun _ => ?_
  exact (faulty_provideDirectories.bind fun _ => faulty_writeBytes).bind fun _ =>
    faulty_run (List.cons_ne_nil _ _) _

end Toolchain

namespace Report

variable {r : Report}

theorem faulty_fill_write {template name : Text} {fields : Table Json}
    (rendered : ∃ content, r.render template fields = .ok content) :
    Faulty (r.fill template fields >>= r.write name) := by
  obtain ⟨content, rendered⟩ := rendered
  refine Raises.bind (.ofExcept ?_) fun _ => (faulty_log _ _ _).bind fun _ => faulty_writeWide
  rw [rendered]
  exact nofun

theorem faulty_writeCode (ready : r.templates = some Templates.shipped) {pane : Pane}
    (shown : pane = .code ∨ pane = .assembly ∨ pane = .decompiled) (function : Text) (page : Nat)
    (source : Text) (lines : List LineRange) (description : WideText) :
    Faulty (r.writeCode function pane page source lines description) := by
  have resolved : Faulty (Style.resolve r.style) :=
    .ite (fun _ => .pure _) fun _ => (faulty_log _ _ _).bind fun _ => .pure _
  have highlighted : Faulty (CodeTable.highlighted source pane.word r.style lines) := by
    refine resolved.bind fun _ => ?_
    extract_lets
    exact .ite (fun _ => (faulty_log _ _ _).bind fun _ => .pure _) fun _ => .pure _
  exact highlighted.bind fun _ => faulty_fill_write (exists_render_code ready shown _ _ _)

theorem faulty_placeGraph (function : Text) (page : Page Primitive) :
    Faulty (r.placeGraph function page) := by
  refine faulty_isFile.bind fun drawn => .ite (fun _ => ?_) fun _ => ?_
  · exact (faulty_log _ _ _).bind fun _ => faulty_copyFile.bind fun _ => .pure _
  refine faulty_isFile.bind fun there => .ite (fun _ => ?_) fun _ => ?_
  · have layout : ∀ graph image, Faulty (Toolchain.layout r.config graph image) :=
      fun _ _ => faulty_provideDirectories.bind fun _ =>
        (Toolchain.faulty_run (List.cons_ne_nil _ _) _).bind fun _ => .pure _
    exact (faulty_log _ _ _).bind fun _ => (layout _ _).bind fun _ => .pure _
  · exact (faulty_log _ _ _).bind fun _ => .pure _

theorem faulty_writeFront (ready : r.templates = some Templates.shipped) (f : Function)
    (code : Option Text) (count : Nat) (page : Page Primitive)
    (lines : List LineRange × List LineRange) : Faulty (r.writeFront f code count page lines) := by
  have assembly : Faulty (r.writeCode f.name .assembly page.number f.text lines.1
      (describe f.name page)) := faulty_writeCode ready (by simp) _ _ _ _ _
  refine (faulty_fill_write (exists_render_overview ready _ _ _ _)).bind fun _ => ?_
  cases code with
  | none => exact assembly
  | some source => exact (faulty_writeCode ready (by simp) _ _ _ _ _).bind fun _ => assembly

/-- Once its lines and its decompiled code are known, a page is written unless there is a fault. -/
theorem faulty_writePage (ready : r.templates = some Templates.shipped) (f : Function)
    (code : Option Text) (count : Nat) (page : Page Primitive)
    (lines : List LineRange × List LineRange) (output : Text) :
    Faulty (r.writePage f code count page lines output) := by
  refine (faulty_writeFront ready f code count page lines).bind fun _ => ?_
  refine Raises.bind ((faulty_placeGraph _ _).bind fun _ =>
    faulty_fill_write (exists_render_graph ready _ _ _)) fun _ => ?_
  exact faulty_writeCode ready (by simp) _ _ _ _ _

end Report

end FlowReport
