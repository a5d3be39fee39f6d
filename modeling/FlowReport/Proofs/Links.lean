import FlowReport.Proofs.Completeness
import FlowReport.Proofs.PageReferences

/-!
# The links of a report

A page links to pages that are not written yet, and which panes an overview frames is up to the
source code. When the run is over, all that the pages refer to is there: the frames, the links to
other pages, the images and the entries of the list of functions. The style sheets and the script of
a report are in its directory before the run and do not count.
-/

namespace FlowReport

open Assembly FileTree FlowReport.Action World Markup

namespace Markup

/-- The file that something refers to, from the directory of the pages. -/
def Reference.target? : Reference → Option Text
  | frame target | image target | link target _ => target
  | current _ => none

/-- The files that a page refers to. -/
def targets (found : List Reference) : List Text := found.filterMap Reference.target?

/-- The links of page `current` of `count` to the pages of a function: each other page once by its
number, the page itself without a link, and the neighbours as far as there are any. -/
structure Paginated (function : Text) (current count : Nat) (found : List Reference) : Prop where
  numbers : ∀ page, found.count (.link (some (Pane.fileName function .overview page))
    (Numeral.ofNat page)) = if 1 ≤ page ∧ page ≤ count ∧ page ≠ current then 1 else 0
  shown : ∀ label, found.count (.current label) = if label = Numeral.ofNat current then 1 else 0
  back : ∀ target, .link target "&laquo;".toList ∈ found ↔
    1 < current ∧ target = some (Pane.fileName function .overview (current - 1))
  on : ∀ target, .link target "&raquo;".toList ∈ found ↔
    current < count ∧ target = some (Pane.fileName function .overview (current + 1))

theorem ofNat_ne_of_mark {n : Nat} {s : Text} (h : '&' ∈ s) : Numeral.ofNat n ≠ s := by
  rintro rfl
  exact absurd (Numeral.isDigit_of_mem_ofNat h) (by decide)

theorem numberReference_injective (function : Text) (current : Nat) :
    Function.Injective (numberReference function current) := by
  intro p q same
  unfold numberReference at same
  split_ifs at same
  · exact Numeral.ofNat_injective (Reference.current.inj same)
  · exact Numeral.ofNat_injective (Reference.link.inj same).2

/-- A number is no mark, so what shows it is no step to a neighbour. -/
theorem numberReference_ne_step (function : Text) (current page : Nat) {target : Option Text}
    {label : Text} (mark : '&' ∈ label) :
    numberReference function current page ≠ .link target label := by
  intro same
  unfold numberReference at same
  split_ifs at same
  exact ofNat_ne_of_mark mark (Reference.link.inj same).2

/-- Among the numbers, each is shown as it should be, once. -/
theorem count_numberReference (function : Text) (current count page : Nat) :
    ((List.range' 1 count).map (numberReference function current)).count
      (numberReference function current page) = if 1 ≤ page ∧ page ≤ count then 1 else 0 := by
  rw [List.count_map_of_injective _ _ (numberReference_injective function current)]
  split
  · rename_i inside
    refine List.count_eq_one_of_mem List.nodup_range' (List.mem_range'_1.2 ⟨inside.1, ?_⟩)
    omega
  · rename_i outside
    refine List.count_eq_zero_of_not_mem fun member => outside ?_
    have := List.mem_range'_1.1 member
    omega

theorem mem_pageLinks {function : Text} {current count : Nat} {found : Reference} :
    found ∈ pageLinks function current count ↔
      (1 < current ∧
        found = .link (some (Pane.fileName function .overview (current - 1))) "&laquo;".toList) ∨
      (∃ page, 1 ≤ page ∧ page ≤ count ∧ numberReference function current page = found) ∨
      (current < count ∧
        found = .link (some (Pane.fileName function .overview (current + 1))) "&raquo;".toList) := by
  have numbers : found ∈ (List.range' 1 count).map (numberReference function current) ↔
      ∃ page, 1 ≤ page ∧ page ≤ count ∧ numberReference function current page = found := by
    simp only [List.mem_map, List.mem_range'_1, and_assoc, Nat.add_comm 1, Nat.lt_succ_iff]
  have single : ∀ {here : Prop} [Decidable here] {a b : Reference},
      a ∈ (if here then [b] else []) ↔ here ∧ a = b := by
    intro here _ a b
    split <;> simp [*]
  rw [pageLinks, List.mem_append, List.mem_append, numbers, single, single, or_assoc]

/-- Whatever leads away among the links of a page leads to a page of the function. -/
theorem exists_page_of_mem_pageLinks {function : Text} {current count : Nat} (first : 1 ≤ current)
    (last : current ≤ count) {found : Reference} (member : found ∈ pageLinks function current count)
    {t : Text} (leads : found.target? = some t) :
    ∃ page, 1 ≤ page ∧ page ≤ count ∧ t = Pane.fileName function .overview page := by
  rcases mem_pageLinks.1 member with ⟨there, rfl⟩ | ⟨page, first, last, rfl⟩ | ⟨there, rfl⟩
  · cases leads
    exact ⟨current - 1, by omega, by omega, rfl⟩
  · unfold numberReference at leads
    split_ifs at leads
    · cases leads
    · cases leads
      exact ⟨page, first, last, rfl⟩
  · cases leads
    exact ⟨current + 1, by omega, there, rfl⟩

/-- What is no step to a neighbour is counted among the numbers. -/
theorem count_pageLinks (function : Text) (current count : Nat) (found : Reference)
    (back : ∀ target, found ≠ .link target "&laquo;".toList)
    (on : ∀ target, found ≠ .link target "&raquo;".toList) :
    (pageLinks function current count).count found =
      ((List.range' 1 count).map (numberReference function current)).count found := by
  have single : ∀ {here : Prop} [Decidable here] {b : Reference}, found ≠ b →
      (if here then [b] else []).count found = 0 := by
    intro here _ b other
    split
    · simp [Ne.symm other]
    · rfl
  rw [pageLinks, List.count_append, List.count_append, single (back _), single (on _), Nat.zero_add,
    Nat.add_zero]

theorem paginated_pageLinks (function : Text) {current count : Nat} (first : 1 ≤ current)
    (last : current ≤ count) :
    Paginated function current count (pageLinks function current count) where
  numbers page := by
    rw [count_pageLinks function current count _
      (fun _ same => ofNat_ne_of_mark (by decide) (Reference.link.inj same).2)
      fun _ same => ofNat_ne_of_mark (by decide) (Reference.link.inj same).2]
    by_cases same : page = current
    · rw [if_neg fun inside => inside.2.2 same, List.count_eq_zero]
      intro member
      obtain ⟨other, -, made⟩ := List.mem_map.1 member
      unfold numberReference at made
      split_ifs at made with here
      exact here ((Numeral.ofNat_injective (Reference.link.inj made).2).trans same)
    · have own := count_numberReference function current count page
      rw [numberReference, if_neg same] at own
      rw [own]
      simp only [same, ne_eq, not_false_eq_true, and_true]
  shown label := by
    rw [count_pageLinks function current count (.current label) (fun _ => nofun) fun _ => nofun]
    split
    · rename_i same
      have own := count_numberReference function current count current
      rw [numberReference, if_pos rfl, if_pos ⟨first, last⟩] at own
      rw [same, own]
    · rename_i other
      rw [List.count_eq_zero]
      intro member
      obtain ⟨page, -, made⟩ := List.mem_map.1 member
      unfold numberReference at made
      split_ifs at made with here
      exact other (by rw [← Reference.current.inj made, here])
  back target := by
    rw [mem_pageLinks]
    constructor
    · rintro (⟨there, same⟩ | ⟨page, -, -, same⟩ | ⟨-, same⟩)
      · exact ⟨there, (Reference.link.inj same).1⟩
      · exact absurd same (numberReference_ne_step _ _ _ (by decide))
      · exact absurd (Reference.link.inj same).2 (by decide)
    · rintro ⟨there, rfl⟩
      exact .inl ⟨there, rfl⟩
  on target := by
    rw [mem_pageLinks]
    constructor
    · rintro (⟨-, same⟩ | ⟨page, -, -, same⟩ | ⟨there, same⟩)
      · exact absurd (Reference.link.inj same).2 (by decide)
      · exact absurd same (numberReference_ne_step _ _ _ (by decide))
      · exact ⟨there, (Reference.link.inj same).1⟩
    · rintro ⟨there, rfl⟩
      exact .inr (.inr ⟨there, rfl⟩)

end Markup

namespace Report

variable {w₀ w : World} {r : Report} {f : Function} {debug : Option Function} {code : Option Text}
  {count : Nat} {page : Page Primitive} {function : Text}

/-- A page that was filled in and written is a text that was made of the fields. -/
theorem filled_of_render {name template : Text} {fields : Table Json} {content : WideText}
    {bytes : Bytes} (shipped : r.templates = some Templates.shipped)
    (named : Templates.shipped.get? name = some template)
    (rendered : r.render name fields = .ok content) (encoded : Utf8.encodeWide content = .ok bytes) :
    ∃ t, bytes = Utf8.encode t ∧
      Template.Filled (Template.fieldTexts fields) (Template.Piece.ofText template) t := by
  have filled : Template.fill (Template.fieldTexts fields) template = .ok content := by
    rw [render, shipped] at rendered
    simp only [Templates.render, named] at rendered
    split at rendered
    · cases rendered
      assumption
    · cases rendered
    · cases rendered
  have text : ∃ t : Text, content = t.wide := by
    unfold Utf8.encodeWide at encoded
    split at encoded
    · exact ⟨_, WideText.text?_eq_some_iff.1 ‹_›⟩
    · cases encoded
  obtain ⟨t, rfl⟩ := text
  rw [Utf8.encodeWide_wide, Except.ok.injEq] at encoded
  exact ⟨t, encoded.symm, filled⟩

/-- A pane that shows a text is made from the fields for a table of the text. -/
theorem Renders.filled_code {found : Material} {pane : Pane} {bytes : Bytes}
    (h : r.Renders f code count page found pane bytes)
    (shipped : r.templates = some Templates.shipped)
    (coded : pane ∈ [.code, .assembly, .decompiled]) :
    ∃ t description source marked, ∃ entry ∈ codeTemplates,
      Templates.shipped.get? pane.word = some entry.1 ∧ bytes = Utf8.encode t ∧
        Template.Filled (Template.fieldTexts
          (r.codeFields f.name description (CodeTable.table source marked)))
          (Template.Piece.ofText entry.1) t := by
  obtain ⟨content, rendered, encoded⟩ := h
  simp only [List.mem_cons, List.not_mem_nil, or_false] at coded
  rcases coded with rfl | rfl | rfl <;>
    obtain ⟨t, written, filled⟩ := filled_of_render shipped rfl rendered encoded
  · exact ⟨t, _, _, _, _, .head _, rfl, written, filled⟩
  · exact ⟨t, _, _, _, _, .tail _ (.head _), rfl, written, filled⟩
  · exact ⟨t, _, _, _, _, .tail _ (.tail _ (.head _)), rfl, written, filled⟩

/-- What the files of a page refer to. -/
inductive PageLinks (w₀ : World) (r : Report) (function : Text) (hasCode : Bool) (count : Nat)
    (page : Page Primitive) : Address → List Reference → Prop where
  | overview : PageLinks w₀ r function hasCode count page
      (r.pagePlace w₀.directory function .overview page.number)
      (.link (some "index.html".toList) (safe r.assemblyName) ::
        (pageLinks function page.number count ++
          (Pane.shown hasCode).map fun pane => .frame (some (pane.fileName function page.number))))
  | text {pane : Pane} (shows : pane ∈ [.code, .assembly, .decompiled]) :
      PageLinks w₀ r function hasCode count page
        (r.pagePlace w₀.directory function pane page.number) []
  | graph (graphed : r.Graphed function page w₀) : PageLinks w₀ r function hasCode count page
      (r.pagePlace w₀.directory function .graph page.number)
      [.image (some ("img/".toList ++ Pane.imageName function page.number))]
  | missing (neither : ¬ r.Graphed function page w₀) : PageLinks w₀ r function hasCode count page
      (r.pagePlace w₀.directory function .graph page.number) []

/-- A file of a page is an image or a text that refers to what it should. -/
inductive PageLinked (w₀ : World) (r : Report) (function : Text) (hasCode : Bool) (count : Nat)
    (page : Page Primitive) : Address → Bytes → Prop where
  | text {a : Address} {t : Text}
      (links : PageLinks w₀ r function hasCode count page a (references t)) :
      PageLinked w₀ r function hasCode count page a (Utf8.encode t)
  | image {bytes : Bytes} : PageLinked w₀ r function hasCode count page
      (r.imagePlace w₀.directory function page.number) bytes

/-- A file of a page that is made from what the run finds refers to what it should. -/
theorem PageContent.linked {v : World} {a : Address} {bytes : Bytes}
    (h : PageContent w₀ r f debug code count page v a bytes)
    (shipped : r.templates = some Templates.shipped) :
    PageLinked w₀ r f.name code.isSome count page a bytes := by
  cases h with
  | image _ => exact .image
  | @pane pane u found _ finds placed rendered =>
    obtain ⟨lines, graph, output⟩ := found
    cases pane with
    | overview =>
      obtain ⟨content, rendered, encoded⟩ := rendered
      obtain ⟨t, rfl, filled⟩ := filled_of_render shipped rfl rendered encoded
      refine .text ?_
      rw [(refers_overview filled).found]
      exact .overview
    | graph =>
      obtain ⟨content, rendered, encoded⟩ := rendered
      obtain ⟨t, rfl, filled⟩ := filled_of_render shipped rfl rendered encoded
      refine .text ?_
      cases placed with
      | image graphed =>
        rw [(refers_graphPage (refers_image _ _) filled).found]
        exact .graph graphed
      | missing neither =>
        rw [(refers_graphPage (refers_noImage _) filled).found]
        exact .missing neither
    | code | assembly | decompiled =>
      obtain ⟨t, _, _, _, _, listed, -, rfl, filled⟩ := rendered.filled_code shipped (by decide)
      refine .text ?_
      rw [(refers_codePage listed filled).found]
      exact .text (by decide)

/-- What the files of a report refer to: the list of functions to the first page of each. -/
inductive ReportLinks (w₀ : World) (r : Report) (names : List Text) (hasCode : Bool) :
    Address → List Reference → Prop where
  | index : ReportLinks w₀ r names hasCode (r.indexPlace w₀.directory)
      (((r.written names).map (·.name)).map fun function =>
        .link (some (Pane.fileName function .overview 1)) (safe function))
  | page {f : Function} {prims : List Primitive} {n : Nat} {a : Address} {found : List Reference}
      (member : f ∈ r.written names) (loads : Loads w₀ r f.name prims) (first : 1 ≤ n)
      (last : n ≤ 2 * prims.length + 1) (links : PageLinks w₀ r f.name hasCode
        (Pagination.count prims) (Pagination.page prims n) a found) :
      ReportLinks w₀ r names hasCode a found

/-- A file of a report is an image or a text that refers to what it should. -/
inductive ReportLinked (w₀ : World) (r : Report) (names : List Text) (hasCode : Bool) :
    Address → Bytes → Prop where
  | text {a : Address} {t : Text} (links : ReportLinks w₀ r names hasCode a (references t)) :
      ReportLinked w₀ r names hasCode a (Utf8.encode t)
  | image {f : Function} {prims : List Primitive} {n : Nat} {bytes : Bytes}
      (member : f ∈ r.written names) (loads : Loads w₀ r f.name prims) (first : 1 ≤ n)
      (last : n ≤ 2 * prims.length + 1) :
      ReportLinked w₀ r names hasCode (r.imagePlace w₀.directory f.name n) bytes

/-- The image of a page is in the directory of the images. -/
theorem place_image (start : Address) (plain : '/' ∉ function) (n : Nat) :
    place start (r.output.child ("img/".toList ++ Pane.imageName function n)) =
      r.imagePlace start function n := by
  obtain ⟨ending, long, unbroken, -, name⟩ := imageName_eq function n
  have whole : '/' ∉ Pane.imageName function n ∧ 2 < (Pane.imageName function n).length := by
    rw [name, List.mem_append, not_or, List.length_append]
    exact ⟨⟨plain, unbroken⟩, by omega⟩
  have inside : r.output.child ("img/".toList ++ Pane.imageName function n) =
      ⟨r.output.root, r.output.names ++ ["img".toList, Pane.imageName function n]⟩ := by
    unfold Path.child
    rw [Path.ofText_append whole.2 whole.1]
    rfl
  rw [inside, imagePlace, Path.child_name whole.1 (by omega),
    Path.child_name (s := "img".toList) (by decide) (by decide), List.append_assoc]
  rfl

/-- What the files of a report refer to are files of the report. -/
theorem reportFile_of_target {names : List Text} {hasCode : Bool} {a : Address}
    {found : List Reference} (plain : ∀ f ∈ r.written names, '/' ∉ f.name)
    (loaded : ∀ f ∈ r.written names, ∃ prims, Loads w₀ r f.name prims)
    (links : ReportLinks w₀ r names hasCode a found) {t : Text} (target : t ∈ targets found) :
    ReportFile w₀ r names hasCode (place w₀.directory (r.output.child t)) := by
  -- a page of a function, by its number
  have page : ∀ {f : Function} {prims : List Primitive} {n : Nat}, f ∈ r.written names →
      Loads w₀ r f.name prims → 1 ≤ n → n ≤ Pagination.count prims → ∀ pane ∈ files hasCode,
        ReportFile w₀ r names hasCode
          (place w₀.directory (r.output.child (pane.fileName f.name n))) := by
    intro f prims n member loads first last pane shown
    refine .function member ⟨prims, loads, n, first, ?_, .pane shown⟩
    rw [Pagination.count] at last
    omega
  obtain ⟨reference, inside, leads⟩ := List.mem_filterMap.1 target
  cases links with
  | index =>
    obtain ⟨function, listed, rfl⟩ := List.mem_map.1 inside
    obtain ⟨f, member, rfl⟩ := List.mem_map.1 listed
    cases leads
    obtain ⟨prims, loads⟩ := loaded f member
    exact page member loads le_rfl (Nat.le_add_right 1 _) _ List.mem_cons_self
  | @page f prims n _ _ member loads first last links =>
    have counted : n ≤ Pagination.count prims := by
      rw [Pagination.count]
      omega
    cases links with
    | overview =>
      rcases List.mem_cons.1 inside with rfl | inside
      · cases leads
        exact .index
      rcases List.mem_append.1 inside with inside | inside
      · obtain ⟨k, first, last, rfl⟩ := exists_page_of_mem_pageLinks first counted inside leads
        exact page member loads first last _ List.mem_cons_self
      · obtain ⟨pane, shown, rfl⟩ := List.mem_map.1 inside
        cases leads
        exact page member loads first counted _ (List.mem_cons_of_mem _ shown)
    | text _ => cases inside
    | graph graphed =>
      obtain rfl := List.mem_singleton.1 inside
      cases leads
      rw [place_image _ (plain f member)]
      exact .function member ⟨prims, loads, n, first, last, .image graphed⟩
    | missing _ => cases inside

/-- In a run that succeeds, all that the pages and the list of functions refer to is written: every
frame, every link, every image. On page `n` of a function the other pages are linked to by number,
and the neighbours as far as there are any. -/
theorem explore_leaves_no_dangling_link {r : Report} {names done : List Text} {w₀ w : World}
    (settled : w₀.Settled) (tame : w₀.Tame r.config.layouter)
    (plain : ∀ f ∈ r.assembly.funcs, f.name ≠ [] ∧ '/' ∉ f.name)
    (shipped : r.templates = some Templates.shipped)
    (ran : perform (r.explore names) w₀ = (.ok done, w)) :
    ∃ code, (∃ w₁, perform r.readSource w₀ = (.ok code, w₁)) ∧
      Writes w₀ (ReportFile w₀ r names code.isSome) (ReportLinked w₀ r names code.isSome) w ∧
      (∀ a found, ReportLinks w₀ r names code.isSome a found → ∀ t ∈ targets found,
        ReportFile w₀ r names code.isSome (place w₀.directory (r.output.child t))) ∧
      ∀ f ∈ r.written names, ∀ prims, Loads w₀ r f.name prims → ∀ n, 1 ≤ n →
        n ≤ 2 * prims.length + 1 → Paginated f.name n (Pagination.count prims)
          (pageLinks f.name n (Pagination.count prims)) := by
  have functions := of_mem_written names plain
  have unbroken := fun f member => (functions f member).2
  obtain ⟨-, code, start, behind, explored⟩ := explored_of_explore ran
  obtain ⟨w₁, source, -⟩ := explored.source
  obtain ⟨loaded, writes⟩ := explored.writes settled tame functions
  refine ⟨code, ⟨w₁, source⟩, writes.congr (fun _ => Iff.rfl) ?_, ?_, ?_⟩
  · rintro a bytes (⟨rfl, content, rendered, encoded⟩ |
      ⟨member, -, prims, debug, loads, -, n, u, first, last, -, content⟩)
    · obtain ⟨t, rfl, filled⟩ := filled_of_render shipped rfl rendered encoded
      refine .text ?_
      rw [(refers_indexPage filled).found]
      exact .index
    · cases content.linked shipped with
      | text links => exact .text (.page member loads first last links)
      | image => exact .image member loads first last
  · intro a found links t member
    exact reportFile_of_target unbroken loaded links member
  · intro f _ prims _ n first last
    refine paginated_pageLinks f.name first ?_
    rw [Pagination.count]
    omega

/-- A report with the templates of the library. -/
def shippedReport (m : Module) : Report :=
  { halfDrawnReport m with templates := some Templates.shipped }

/-- Three pages, of which two have an image, and the list of functions refer only to each other: of the
two wanted functions one has no body. -/
theorem explore_leaves_no_dangling_link_half_drawn :
    ∃ m, Module.ofText halfDrawnText = .ok m ∧ ∃ w, ∃ code : Option Text,
      perform ((shippedReport m).explore ["f", "g"]) halfDrawnWorld = (.ok ["f".toList], w) ∧
      Writes halfDrawnWorld (ReportFile halfDrawnWorld (shippedReport m) ["f", "g"] code.isSome)
        (ReportLinked halfDrawnWorld (shippedReport m) ["f", "g"] code.isSome) w ∧
      ∀ a found, ReportLinks halfDrawnWorld (shippedReport m) ["f", "g"] code.isSome a found →
        ∀ t ∈ targets found, ReportFile halfDrawnWorld (shippedReport m) ["f", "g"] code.isSome
          (place halfDrawnWorld.directory ((shippedReport m).output.child t)) := by
  obtain ⟨m, parsed, plain, ran⟩ : ∃ m, Module.ofText halfDrawnText = .ok m ∧
      (∀ f ∈ m.funcs, f.name ≠ [] ∧ '/' ∉ f.name) ∧
      (perform ((shippedReport m).explore ["f", "g"]) halfDrawnWorld).1.toOption =
        some ["f".toList] := by
    refine ⟨_, by cbv, by decide +kernel, ?_⟩
    -- the templates are spelled out first, which is faster than to let the kernel do it
    simp only [shippedReport, Templates.shipped, Source.overview, Source.code, Source.assembly,
      Source.graph, Source.decompiled, Source.index, Source.text, List.flatMap_cons,
      List.flatMap_nil]
    repeat rw [String.toList_ofList]
    decide +kernel
  have ran := perform_eq_ok ran
  obtain ⟨code, -, writes, linked, -⟩ := explore_leaves_no_dangling_link settled_halfDrawnWorld
    (tame_of_drawing rfl (shippedReport m).config.layouter) (r := shippedReport m) plain rfl ran
  exact ⟨m, parsed, _, code, ran, writes, linked⟩

end Report

end FlowReport
