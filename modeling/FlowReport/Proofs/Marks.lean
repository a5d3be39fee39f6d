import FlowReport.Proofs.Filling
import FlowReport.Proofs.Links

/-!
# Names bring no markup

The brackets of tags and the quotes of attributes are marks. A field that is made safe brings none,
so the marks of a page are those of its template and of the fields that hold markup; and the markup
that is put together from names has the same marks whatever the names are. Two runs that differ in
names only therefore write pages with the same marks, apart from the code that they show.
-/

namespace FlowReport

open Assembly FileTree FlowReport.Action World

namespace Markup

/-- The marks of a text, in order. -/
def marks (s : Text) : Text := s.filter isMark

theorem marks_append (s t : Text) : marks (s ++ t) = marks s ++ marks t := List.filter_append _ _

theorem marks_unmarked {s : Text} (h : ∀ c ∈ s, isMark c = false) : marks s = [] :=
  List.filter_eq_nil_iff.2 fun c member => by rw [h c member]; decide

theorem marks_safe (s : Text) : marks (safe s) = [] := marks_unmarked not_mark_of_mem_safe

/-! ## Markup that is made of names -/

variable {f g : Text}

theorem marks_join {s : Text} {parts parts' : List Text}
    (same : List.Forall₂ (fun part part' => marks part = marks part') parts parts') :
    marks (Text.join s parts) = marks (Text.join s parts') := by
  induction same with
  | nil => rfl
  | @cons part part' parts parts' head rest ih =>
    cases rest with
    | nil => exact head
    | cons _ _ =>
      simp only [Text.join, marks_append] at ih ⊢
      rw [head, ih]

/-- A frame has its marks from the page alone. -/
theorem marks_frame (page : Nat) (pane : Pane) :
    marks (frame f page pane) = marks (frame g page pane) := by
  unfold frame
  simp only [marks_append, marks_safe]

theorem marks_pageLink (page : Nat) (label : Text) :
    marks (pageLink f page label) = marks (pageLink g page label) := by
  unfold pageLink
  simp only [marks_append, marks_safe]

theorem marks_stepLink (page : Option Nat) (label : Text) :
    marks (stepLink f page label) = marks (stepLink g page label) := by
  cases page with
  | none => rfl
  | some page => exact marks_pageLink page label

theorem marks_numberLink (current page : Nat) :
    marks (numberLink f current page) = marks (numberLink g current page) := by
  unfold numberLink
  split
  · rfl
  · exact marks_pageLink page _

theorem marks_indexEntry : marks (indexEntry f) = marks (indexEntry g) := by
  unfold indexEntry
  simp only [marks_append, marks_safe]

theorem marks_frames (page : Nat) (hasCode : Bool) :
    marks (frames f page hasCode) = marks (frames g page hasCode) := by
  apply marks_join
  rw [List.forall₂_map_left_iff, List.forall₂_map_right_iff, List.forall₂_same]
  exact fun pane _ => marks_frame page pane

theorem marks_pagination (current count : Nat) :
    marks (pagination f current count) = marks (pagination g current count) := by
  have numbers : List.Forall₂ (fun part part' => marks part = marks part')
      ((List.range count).map fun k => numberLink f current (k + 1))
      ((List.range count).map fun k => numberLink g current (k + 1)) := by
    rw [List.forall₂_map_left_iff, List.forall₂_map_right_iff, List.forall₂_same]
    exact fun k _ => marks_numberLink current (k + 1)
  apply marks_join
  exact List.rel_append (R := fun part part' => marks part = marks part')
    (.cons (marks_stepLink _ _) numbers) (.cons (marks_stepLink _ _) .nil)

/-- The list of functions has its marks from their number. -/
theorem marks_index {functions functions' : List Text}
    (same : functions.length = functions'.length) :
    marks (index functions) = marks (index functions') := by
  apply marks_join
  rw [List.forall₂_map_left_iff, List.forall₂_map_right_iff, List.forall₂_iff_zip]
  exact ⟨same, fun _ => marks_indexEntry⟩

theorem marks_image {description description' : Text} :
    marks (image f description) = marks (image g description') := by
  unfold image
  simp only [marks_append, marks_safe]

theorem marks_noImage : marks (noImage f) = marks (noImage g) := by
  unfold noImage
  simp only [marks_append, marks_safe]

end Markup

namespace Template

open Markup

variable {fields fields' : Table Json} {s s' : Text}

/-- Two fields of one name that bring the same marks: they are made safe, or their markup has them. -/
inductive Agree : Text × Json → Text × Json → Prop where
  | quiet {key : Text} (safe : isMarkup key = false) (v v' : Json) : Agree (key, v) (key, v')
  | markup (key : Text) {t t' : Text} (same : marks t = marks t') :
      Agree (key, .ofText t) (key, .ofText t')

theorem get?_fieldTexts_cons {key name : Text} {v : Json} (other : key ≠ name) :
    (fieldTexts ((key, v) :: fields)).get? name = (fieldTexts fields).get? name := by
  rw [get?_fieldTexts, get?_fieldTexts, Table.get?, if_neg other]

/-- What the fields of one name stand for has the same marks. -/
theorem marks_stands (agree : List.Forall₂ Agree fields fields') {key : Text}
    (stands : (fieldTexts fields).get? key = some s.wide)
    (stands' : (fieldTexts fields').get? key = some s'.wide) : marks s = marks s' := by
  induction agree with
  | nil => cases stands
  | cons head _ ih =>
    cases head with
    | @quiet name safe v v' =>
      by_cases same : name = key
      · rw [same] at safe
        rw [marks_unmarked (unmarked_field safe stands), marks_unmarked (unmarked_field safe stands')]
      · rw [get?_fieldTexts_cons same] at stands stands'
        exact ih stands stands'
    | @markup name t t' agree =>
      by_cases same : name = key
      · have given : ∀ (u : Text) (rest : Table Json),
            Table.get? ((name, Json.ofText u) :: rest) key = some (.ofText u) := by
          intro u rest
          rw [Table.get?, if_pos same]
        rw [field_ofText (given t _) stands, field_ofText (given t' _) stands']
        split
        · exact agree
        · rw [marks_safe, marks_safe]
      · rw [get?_fieldTexts_cons same] at stands stands'
        exact ih stands stands'

/-- What pieces make of fields has their marks and those that the fields bring. -/
theorem marks_pieces {pieces : List Piece}
    (agree : ∀ braced name, .field braced name ∈ pieces → ∀ {t t' : Text},
      (fieldTexts fields).get? name = some t.wide → (fieldTexts fields').get? name = some t'.wide →
        marks t = marks t')
    (filled : Filled (fieldTexts fields) pieces s) (filled' : Filled (fieldTexts fields') pieces s') :
    marks s = marks s' := by
  induction pieces generalizing s s' with
  | nil => rw [filled_nil.1 filled, filled_nil.1 filled']
  | cons piece pieces ih =>
    obtain ⟨t, u, rfl, stands, rest⟩ := filled_cons.1 filled
    obtain ⟨t', u', rfl, stands', rest'⟩ := filled_cons.1 filled'
    have tail : marks u = marks u' :=
      ih (fun braced name member => agree braced name (List.mem_cons_of_mem _ member)) rest rest'
    have head : marks t = marks t' := by
      cases piece with
      | char c => rw [show t = [c] from stands, show t' = [c] from stands']
      | dollar => rw [show t = ['$'] from stands, show t' = ['$'] from stands']
      | field braced name => exact agree braced name List.mem_cons_self stands stands'
      | mistake => exact stands.elim
    rw [marks_append, marks_append, head, tail]

/-- What a template makes of fields that agree has the same marks. -/
theorem marks_filled {pieces : List Piece} (agree : List.Forall₂ Agree fields fields')
    (filled : Filled (fieldTexts fields) pieces s) (filled' : Filled (fieldTexts fields') pieces s') :
    marks s = marks s' :=
  marks_pieces (fun _ _ _ {_ _} => marks_stands agree) filled filled'

/-- A text between what a template makes of its pieces before a field and of those behind it. -/
structure Around (fields : Table WideText) (template key front value back : Text) : Prop where
  stands : fields.get? key = some value.wide
  pieces : ∃ before braced behind, Piece.ofText template = before ++ .field braced key :: behind ∧
    Filled fields before front ∧ Filled fields behind back

/-- The piece is a field that holds markup. -/
def holdsMarkup : Piece → Bool
  | .field _ name => isMarkup name
  | _ => false

/-- A template with a single field that holds markup has, around that field, the same marks for all
fields. -/
theorem marks_around {template key : Text} {braced : Bool}
    (single : (Piece.ofText template).filter holdsMarkup = [.field braced key])
    (filled : Filled (fieldTexts fields) (Piece.ofText template) s)
    (filled' : Filled (fieldTexts fields') (Piece.ofText template) s') :
    ∃ front value back front' value' back',
      (s = front ++ value ++ back ∧ Around (fieldTexts fields) template key front value back) ∧
      (s' = front' ++ value' ++ back' ∧ Around (fieldTexts fields') template key front' value' back') ∧
      marks front = marks front' ∧ marks back = marks back' := by
  have member : Piece.field braced key ∈ (Piece.ofText template).filter holdsMarkup := by
    rw [single]
    exact List.mem_singleton_self _
  obtain ⟨member, holds⟩ := List.mem_filter.1 member
  obtain ⟨before, behind, cut⟩ := List.append_of_mem member
  -- no other piece holds markup
  rw [cut, List.filter_append, List.filter_cons_of_pos holds] at single
  have alone := congrArg List.length single
  simp only [List.length_append, List.length_cons, List.length_nil] at alone
  have quiet : ∀ {pieces : List Piece}, (pieces.filter holdsMarkup).length = 0 →
      ∀ {t t' : Text}, Filled (fieldTexts fields) pieces t → Filled (fieldTexts fields') pieces t' →
        marks t = marks t' := by
    intro pieces none t t' filled filled'
    refine marks_pieces ?_ filled filled'
    intro braced name member u u' stands stands'
    have safe : isMarkup name = false :=
      Bool.eq_false_iff.2 (List.filter_eq_nil_iff.1 (List.length_eq_zero_iff.1 none) _ member)
    rw [marks_unmarked (unmarked_field safe stands), marks_unmarked (unmarked_field safe stands')]
  rw [cut] at filled filled'
  obtain ⟨front, _, rfl, before_filled, rest⟩ := filled_append.1 filled
  obtain ⟨front', _, rfl, before_filled', rest'⟩ := filled_append.1 filled'
  obtain ⟨value, back, rfl, stands, behind_filled⟩ := filled_cons.1 rest
  obtain ⟨value', back', rfl, stands', behind_filled'⟩ := filled_cons.1 rest'
  refine ⟨front, value, back, front', value', back', ⟨by simp, stands, before, braced, behind, cut, ?_⟩,
    ⟨by simp, stands', before, braced, behind, cut, ?_⟩, quiet (by omega) before_filled before_filled',
    quiet (by omega) behind_filled behind_filled'⟩
  · exact ⟨before_filled, behind_filled⟩
  · exact ⟨before_filled', behind_filled'⟩

end Template

namespace Report

open Markup Template

variable {w₀ w₀' w w' : World} {r r' : Report} {f f' : Function} {debug debug' : Option Function}
  {code code' : Option Text} {count : Nat} {page page' : Page Primitive}

/-- The page of a pane that shows a text as a table of code, and what stands around the table. -/
def ShowsCode (r : Report) (function : Text) (pane : Pane) (front back shown : Text) : Prop :=
  ∃ template description source marked, Templates.shipped.get? pane.word = some template ∧
    shown = front ++ CodeTable.table source marked ++ back ∧
      Around (fieldTexts (r.codeFields function description (CodeTable.table source marked))) template
        "code_html" front (CodeTable.table source marked) back

/-- The pages of one pane in two runs have the same marks: all of them, which is said of the pane with
the graph if it is of one kind, or those around the code that they show. -/
inductive SameMarks (r r' : Report) (function function' : Text) (kind : Prop) :
    Pane → Text → Text → Prop where
  | overview {t t' : Text} (same : marks t = marks t') :
      SameMarks r r' function function' kind .overview t t'
  | graph {t t' : Text} (same : kind → marks t = marks t') :
      SameMarks r r' function function' kind .graph t t'
  | text {pane : Pane} {t t' front front' back back' : Text}
      (coded : pane ∈ [.code, .assembly, .decompiled]) (shows : ShowsCode r function pane front back t)
      (shows' : ShowsCode r' function' pane front' back' t')
      (before : marks front = marks front') (behind : marks back = marks back') :
      SameMarks r r' function function' kind pane t t'

/-- The run of a page that starts in the world `w₀` looks for the graph in the world `u`: if the name of
the function is that of a file, it finds one if there was one before. -/
structure LooksForGraph (w₀ : World) (r : Report) (f : Function) (debug : Option Function)
    (code : Option Text) (count : Nat) (page : Page Primitive) (u : World) : Prop where
  finds : ∃ found, Finds r f debug code count page w₀ u found
  before : f.name ≠ [] → '/' ∉ f.name → (r.HasGraph f.name page u ↔ r.Graphed f.name page w₀)

theorem Finds.looksForGraph {u : World} {found : Material}
    (finds : Finds r f debug code count page w₀ u found) (settled : w₀.Settled)
    (modest : w₀.Modest r.config.layouter)
    (ran : perform (r.explorePage f debug code count page) w₀ = (.ok (), w)) :
    LooksForGraph w₀ r f debug code count page u where
  finds := ⟨found, finds⟩
  before named plain := by
    have ground : Grounded w₀ r w₀ := ⟨⟨settled.rests, fun _ _ => rfl⟩,
      entered_of_explorePage modest.confined settled.straight plain _ _ _ ⟨settled.rests, rfl⟩ ran⟩
    exact ground.hasGraph (finds.grounded modest settled.straight plain ground) plain named

theorem agree_overviewFields {function function' : Text} {hasCode : Bool} (style : r.style = r'.style)
    (number : page.number = page'.number) :
    List.Forall₂ Agree (r.overviewFields function page count hasCode)
      (r'.overviewFields function' page' count hasCode) := by
  have styles : marks (Style.options r.style Style.names) =
      marks (Style.options r'.style Style.names) := by
    rw [style]
  have pages : marks (pagination function page.number count) =
      marks (pagination function' page'.number count) := by
    rw [number]
    exact marks_pagination _ _
  have panes : marks (frames function page.number hasCode) =
      marks (frames function' page'.number hasCode) := by
    rw [number]
    exact marks_frames _ _
  exact .cons (.quiet rfl _ _) (.cons (.quiet rfl _ _) (.cons (.quiet rfl _ _) (.cons (.quiet rfl _ _)
    (.cons (.quiet rfl _ _) (.cons (.quiet rfl _ _) (.cons (.quiet rfl _ _) (.cons (.markup _ styles)
      (.cons (.markup _ pages) (.cons (.markup _ panes) .nil)))))))))

/-- The markup for two graphs has the same marks if it is an image both times or a note both times. -/
theorem marks_placed {function function' graph graph' : Text} {there there' : Prop}
    (placed : Placed function page there graph) (placed' : Placed function' page' there' graph')
    (kind : there ↔ there') : marks graph = marks graph' := by
  cases placed with
  | image graphed =>
    cases placed' with
    | image _ => exact marks_image
    | missing none => exact absurd (kind.1 graphed) none
  | missing none =>
    cases placed' with
    | image graphed => exact absurd (kind.2 graphed) none
    | missing _ => exact marks_noImage

/-- A page with code has one field that holds markup: the code. -/
theorem filter_holdsMarkup_code : ∀ entry ∈ codeTemplates,
    (Piece.ofText entry.1).filter holdsMarkup = [.field true "code_html".toList] := by
  unfold codeTemplates
  simp only [Source.code, Source.assembly, Source.decompiled, Source.text, List.flatMap_cons,
    List.flatMap_nil]
  repeat rw [String.toList_ofList]
  decide +kernel

/-- Two pages of one number, of any functions, have the same marks, pane by pane. -/
theorem sameMarks_of_renders {pane : Pane} {found found' : Material} {bytes bytes' : Bytes}
    {there there' : Prop} (shipped : r.templates = some Templates.shipped)
    (shipped' : r'.templates = some Templates.shipped) (style : r.style = r'.style)
    (source : code.isSome = code'.isSome) (number : page.number = page'.number)
    (placed : Placed f.name page there found.graph)
    (placed' : Placed f'.name page' there' found'.graph)
    (rendered : r.Renders f code count page found pane bytes)
    (rendered' : r'.Renders f' code' count page' found' pane bytes') :
    ∃ t t', bytes = Utf8.encode t ∧ bytes' = Utf8.encode t' ∧
      SameMarks r r' f.name f'.name (there ↔ there') pane t t' := by
  cases pane with
  | overview =>
    obtain ⟨content, rendered, encoded⟩ := rendered
    obtain ⟨content', rendered', encoded'⟩ := rendered'
    obtain ⟨t, rfl, filled⟩ := filled_of_render shipped rfl rendered encoded
    obtain ⟨t', rfl, filled'⟩ := filled_of_render shipped' rfl rendered' encoded'
    simp only [paneFields, source] at filled
    exact ⟨t, t', rfl, rfl,
      .overview (marks_filled (agree_overviewFields style number) filled filled')⟩
  | graph =>
    obtain ⟨content, rendered, encoded⟩ := rendered
    obtain ⟨content', rendered', encoded'⟩ := rendered'
    obtain ⟨t, rfl, filled⟩ := filled_of_render shipped rfl rendered encoded
    obtain ⟨t', rfl, filled'⟩ := filled_of_render shipped' rfl rendered' encoded'
    have agree : ∀ same : marks found.graph = marks found'.graph, List.Forall₂ Agree
        (graphFields f.name page found.graph) (graphFields f'.name page' found'.graph) := fun same =>
      .cons (.quiet rfl _ _) (.cons (.quiet rfl _ _) (.cons (.quiet rfl _ _) (.cons (.quiet rfl _ _)
        (.cons (.markup _ same) .nil))))
    exact ⟨t, t', rfl, rfl, .graph fun kind =>
      marks_filled (agree (marks_placed placed placed' kind)) filled filled'⟩
  | code | assembly | decompiled =>
    obtain ⟨t, _, _, _, entry, listed, named, rfl, filled⟩ := rendered.filled_code shipped (by decide)
    obtain ⟨t', _, _, _, entry', -, named', rfl, filled'⟩ :=
      rendered'.filled_code shipped' (by decide)
    -- both are made from the template of the pane
    rw [← Option.some.inj (named.symm.trans named')] at filled'
    obtain ⟨front, value, back, front', value', back', ⟨rfl, around⟩, ⟨rfl, around'⟩, before,
      behind⟩ := marks_around (filter_holdsMarkup_code _ listed) filled filled'
    obtain rfl := field_ofText rfl around.stands
    obtain rfl := field_ofText rfl around'.stands
    exact ⟨_, _, rfl, rfl, .text (by decide) ⟨_, _, _, _, named, rfl, around⟩
      ⟨_, _, _, _, named, rfl, around'⟩ before behind⟩

/-- The list of functions that a run leaves is made of their names. -/
theorem index_of_explore {names done : List Text} (settled : w₀.Settled)
    (shipped : r.templates = some Templates.shipped)
    (ran : perform (r.explore names) w₀ = (.ok done, w)) :
    ∃ t, w.tree.fileAt? (r.indexPlace w₀.directory) = some (Utf8.encode t) ∧
      Filled (fieldTexts [("ll_name", .ofText r.assemblyName),
        ("funcs_html", .ofText (Markup.index done))]) (Piece.ofText Source.index) t := by
  obtain ⟨rfl, code, start, behind, explored⟩ := explored_of_explore ran
  obtain ⟨w₁, read, selected⟩ := explored.source
  have stable := stable_stays w₀
  have stays := Ensures.of_preserves (preserves_readSource stable) _ _ _ settled.stays read
  have stays := Ensures.of_preserves (preserves_selected stable names) _ _ _ stays selected
  have pages : Preserves (Stays w₀) ((r.written names).forM fun f => r.exploreFunction f code) :=
    .forM fun f _ => preserves_exploreFunction stable fun prims page _ => {
      toDraws := draws_everything
      panes := fun _ _ _ => trivial
      decompiler := Toolchain.staging_everything settled.straight r.unbroken_assemblyName f.name }
  have stays := Ensures.of_preserves pages _ _ _ stays explored.pages
  obtain ⟨content, rendered, bytes, encoded, kept⟩ :=
    ensures_fill_write _ _ _ _ _ _ stays explored.index
  obtain ⟨t, rfl, filled⟩ := filled_of_render shipped rfl rendered encoded
  exact ⟨t, fileAt?_eq_some_iff.2 kept.kept.node, filled⟩

/-- Names bring no markup. Two runs for a page of one number, out of as many pages, in one style, with
source code or without any, and with a graph both or neither, write pages with the same marks pane by
pane, whatever the function, the input and the primitives are named; and so do two runs that list as
many functions. -/
theorem names_bring_no_marks {w₀ w₀' : World} {r r' : Report} (settled : w₀.Settled)
    (settled' : w₀'.Settled) (tame : w₀.Tame r.config.layouter) (tame' : w₀'.Tame r'.config.layouter)
    (shipped : r.templates = some Templates.shipped)
    (shipped' : r'.templates = some Templates.shipped) (style : r.style = r'.style) :
    (∀ {f f' debug debug' code code' count} {page page' : Page Primitive} {w w'},
      page.number = page'.number → code.isSome = code'.isSome →
      perform (r.explorePage f debug code count page) w₀ = (.ok (), w) →
      perform (r'.explorePage f' debug' code' count page') w₀' = (.ok (), w') →
      ∃ u u', LooksForGraph w₀ r f debug code count page u ∧
        LooksForGraph w₀' r' f' debug' code' count page' u' ∧
        ∀ pane ∈ files code.isSome, ∃ t t',
          w.tree.fileAt? (r.pagePlace w₀.directory f.name pane page.number) = some (Utf8.encode t) ∧
          w'.tree.fileAt? (r'.pagePlace w₀'.directory f'.name pane page'.number) =
            some (Utf8.encode t') ∧ SameMarks r r' f.name f'.name
              (r.HasGraph f.name page u ↔ r'.HasGraph f'.name page' u') pane t t') ∧
    ∀ {names names' done done' w w'},
      perform (r.explore names) w₀ = (.ok done, w) →
      perform (r'.explore names') w₀' = (.ok done', w') → done.length = done'.length →
      ∃ t t', w.tree.fileAt? (r.indexPlace w₀.directory) = some (Utf8.encode t) ∧
        w'.tree.fileAt? (r'.indexPlace w₀'.directory) = some (Utf8.encode t') ∧
          marks t = marks t' := by
  constructor
  · intro f f' debug debug' code code' count page page' w w' number source ran ran'
    obtain ⟨u, found, finds, shows⟩ :=
      ensures_explorePage_shows tame.modest settled.straight settled.stays _ _ _ rfl ran
    obtain ⟨u', found', finds', shows'⟩ :=
      ensures_explorePage_shows tame'.modest settled'.straight settled'.stays _ _ _ rfl ran'
    refine ⟨u, u', finds.looksForGraph settled tame.modest ran,
      finds'.looksForGraph settled' tame'.modest ran', ?_⟩
    intro pane member
    obtain ⟨bytes, rendered, kept⟩ := shows pane member
    obtain ⟨bytes', rendered', kept'⟩ := shows' pane (source ▸ member)
    obtain ⟨t, t', rfl, rfl, same⟩ := sameMarks_of_renders shipped shipped' style source number
      finds.placed finds'.placed rendered rendered'
    exact ⟨t, t', fileAt?_eq_some_iff.2 kept.kept.node, fileAt?_eq_some_iff.2 kept'.kept.node, same⟩
  · intro names names' done done' w w' ran ran' same
    obtain ⟨t, there, filled⟩ := index_of_explore settled shipped ran
    obtain ⟨t', there', filled'⟩ := index_of_explore settled' shipped' ran'
    exact ⟨t, t', there, there', marks_filled
      (.cons (.quiet rfl _ _) (.cons (.markup _ (marks_index same)) .nil)) filled filled'⟩

/-- A report about an empty module in a file of that name. -/
def namedReport (path : Text) : Report where
  path := path
  assembly := ⟨path, [], [], none, [], [], [], []⟩
  style := "default"
  templates := some Templates.shipped

/-- A world with the directories of two reports, one of them with marks in its name. -/
def markedWorld : World where
  tree := ⟨[(["r_explore"], .directory), (["<r>_explore"], .directory), (["tmp"], .directory)]⟩
  temporary := ["tmp"]
  respond := drawingPrograms [3] "package main"

/-- A function without lines. -/
def namedFunction (name : Text) : Function := ⟨name, [], [], [], [], none⟩

/-- The overviews of two functions, one with a name like a tag, have the same marks, and so have the
notes that there are no graphs. -/
theorem names_bring_no_marks_overview : ∃ w w',
    perform ((namedReport "r.ll").explorePage (namedFunction "g") none none 1
      (Pagination.page [] 1)) markedWorld = (.ok (), w) ∧
    perform ((namedReport "<r>.ll").explorePage (namedFunction "<b>\"'") none none 1
      (Pagination.page [] 1)) markedWorld = (.ok (), w') ∧
    ∀ pane ∈ [Pane.overview, .graph], ∃ t t',
      w.tree.fileAt? ["r_explore", pane.fileName "g" 1] = some (Utf8.encode t) ∧
      w'.tree.fileAt? ["<r>_explore", pane.fileName "<b>\"'" 1] = some (Utf8.encode t') ∧
      marks t = marks t' := by
  have first : (perform ((namedReport "r.ll").explorePage (namedFunction "g") none none 1
      (Pagination.page [] 1)) markedWorld).1.toOption = some () := by
    simp only [namedReport, Templates.shipped, Source.overview, Source.code, Source.assembly,
      Source.graph, Source.decompiled, Source.index, Source.text, List.flatMap_cons,
      List.flatMap_nil]
    repeat rw [String.toList_ofList]
    decide +kernel
  have second : (perform ((namedReport "<r>.ll").explorePage (namedFunction "<b>\"'") none none 1
      (Pagination.page [] 1)) markedWorld).1.toOption = some () := by
    simp only [namedReport, Templates.shipped, Source.overview, Source.code, Source.assembly,
      Source.graph, Source.decompiled, Source.index, Source.text, List.flatMap_cons,
      List.flatMap_nil]
    repeat rw [String.toList_ofList]
    decide +kernel
  have first := perform_eq_ok first
  have second := perform_eq_ok second
  have settled : markedWorld.Settled := ⟨by decide +kernel, rfl, rfl, by decide⟩
  have shipped : ∀ path, (namedReport path).templates = some Templates.shipped := fun _ => rfl
  obtain ⟨pages, -⟩ := names_bring_no_marks settled settled (tame_of_drawing rfl _)
    (tame_of_drawing rfl _) (shipped "r.ll") (shipped "<r>.ll") rfl
  obtain ⟨u, u', looks, looks', shows⟩ := pages rfl rfl first second
  -- neither function has a graph
  have missing : ∀ {p : Path}, markedWorld.tree.look [] p = .ok none → ¬ markedWorld.HasFile p := by
    rintro p nothing ⟨-, content, there⟩
    cases nothing.symm.trans there
  have neither : ¬ (namedReport "r.ll").HasGraph (namedFunction "g").name
      (Pagination.page [] 1) u := by
    rw [looks.before (by decide) (by decide)]
    rintro (there | there) <;> exact missing (by decide +kernel) there
  have neither' : ¬ (namedReport "<r>.ll").HasGraph (namedFunction "<b>\"'").name
      (Pagination.page [] 1) u' := by
    rw [looks'.before (by decide) (by decide)]
    rintro (there | there) <;> exact missing (by decide +kernel) there
  refine ⟨_, _, first, second, ?_⟩
  intro pane member
  simp only [List.mem_cons, List.not_mem_nil, or_false] at member
  rcases member with rfl | rfl
  · obtain ⟨t, t', there, there', same⟩ := shows .overview (by decide)
    cases same with
    | overview same => exact ⟨t, t', there, there', same⟩
    | text coded => exact absurd coded (by decide)
  · obtain ⟨t, t', there, there', same⟩ := shows .graph (by decide)
    cases same with
    | graph same => exact ⟨t, t', there, there', same (iff_of_false neither neither')⟩
    | text coded => exact absurd coded (by decide)

end Report

end FlowReport
