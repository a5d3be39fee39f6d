import FlowReport.Proofs.Filling
import FlowReport.Proofs.Numerals
import FlowReport.Proofs.Tags
import FlowReport.Report.Explore

/-!
# What the pages of a report refer to

An overview refers to the list of functions, to the other pages of its function and to the panes that
it frames; the pane with the graph refers to its image; the list of functions refers to the first page
of each. All of it is read off the text of the page.
-/

namespace FlowReport

namespace Markup

/-! ## The parts of a page -/

/-- A tag whose attribute is a text that was made safe. -/
theorem plain_tag (front : Text) (h : '<' ∉ front ∧ '>' ∉ front) (target : Text) :
    '<' ∉ front ++ safe target ++ ['"'] ∧ '>' ∉ front ++ safe target ++ ['"'] := by
  simp only [List.mem_append, not_or, List.mem_singleton]
  exact ⟨⟨⟨h.1, not_mem_safe _ rfl _⟩, by decide⟩, ⟨h.2, not_mem_safe _ rfl _⟩, by decide⟩

theorem reference?_frame (target label : Text) :
    Tag.reference? ⟨"iframe src=\"".toList ++ safe target ++ ['"'], label⟩ =
      some (.frame (some target)) := by
  have value : Tag.attribute? "src" ⟨"iframe src=\"".toList ++ safe target ++ ['"'], label⟩ =
      some target := Tag.attribute?_safe "iframe".toList [] (by
        rw [List.append_assoc]; rfl)
  have name : Tag.name ⟨"iframe src=\"".toList ++ safe target ++ ['"'], label⟩ =
      "iframe".toList := rfl
  rw [Tag.reference?, name, if_pos rfl, value]

theorem reference?_link (target label : Text) :
    Tag.reference? ⟨"a href=\"".toList ++ safe target ++ ['"'], label⟩ =
      some (.link (some target) label) := by
  have value : Tag.attribute? "href" ⟨"a href=\"".toList ++ safe target ++ ['"'], label⟩ =
      some target := Tag.attribute?_safe "a".toList [] (by
        rw [List.append_assoc]; rfl)
  have name : Tag.name ⟨"a href=\"".toList ++ safe target ++ ['"'], label⟩ = "a".toList := rfl
  rw [Tag.reference?, name, if_neg (by decide), if_pos rfl, value]

/-- A link with its label. -/
theorem refers_link (target : Text) {label rest : Text} (text : '<' ∉ label)
    (follows : closes ('<' :: rest) = true ∧ references ('<' :: rest) = []) :
    Refers ("<a href=\"".toList ++ safe target ++ "\">".toList ++ label ++ '<' :: rest)
      [.link (some target) label] := by
  have element := refers_element _ (plain_tag "a href=\"".toList (by decide) target) text follows
  rw [reference?_link] at element
  simp only [List.append_assoc] at element ⊢
  exact element

/-- A part behind blanks. -/
theorem Refers.indented {s : Text} {found : List Reference} (h : Refers s found) :
    Refers ("\t\t".toList ++ s) found :=
  (refers_plain (s := "\t\t".toList) (by decide)).append h

/-- What a frame refers to. -/
theorem refers_frame (function : Text) (page : Nat) (pane : Pane) :
    Refers (frame function page pane) [.frame (some (pane.fileName function page))] := by
  have front : "\t\t<iframe src=\"".toList = "\t\t".toList ++ '<' :: "iframe src=\"".toList := rfl
  have follows : closes ('<' :: "/iframe>".toList) = true ∧
      references ('<' :: "/iframe>".toList) = [] := by decide
  have element := refers_element _ (plain_tag "iframe src=\"".toList (by decide)
    (pane.fileName function page)) List.not_mem_nil follows
  rw [reference?_frame] at element
  have all := element.indented
  unfold frame
  rw [front]
  simp only [List.append_assoc] at all ⊢
  exact all

theorem refers_frames (function : Text) (page : Nat) (hasCode : Bool) :
    Refers (frames function page hasCode)
      ((Pane.shown hasCode).map fun pane => .frame (some (pane.fileName function page))) := by
  rw [List.map_eq_flatMap]
  exact refers_join_map fun pane _ => refers_frame function page pane

/-- What a link to a page refers to. -/
theorem refers_pageLink (function : Text) (page : Nat) {label : Text} (plain : '<' ∉ label) :
    Refers (pageLink function page label)
      [.link (some (Pane.fileName function .overview page)) label] := by
  have front : "\t\t<a href=\"".toList = "\t\t".toList ++ "<a href=\"".toList := rfl
  have follows : closes ('<' :: "/a>".toList) = true ∧ references ('<' :: "/a>".toList) = [] := by
    decide
  have all := (refers_link (Pane.fileName function .overview page) plain follows).indented
  unfold pageLink
  rw [front]
  simp only [List.append_assoc] at all ⊢
  exact all

theorem closing_span :
    closes ('<' :: "/span>".toList) = true ∧ references ('<' :: "/span>".toList) = [] := by
  decide

/-- A step that is not there is no reference. -/
theorem refers_disabled {label : Text} (plain : '<' ∉ label) :
    Refers ("\t\t<span class=\"disabled\">".toList ++ label ++ "</span>".toList) [] := by
  have front : "\t\t<span class=\"disabled\">".toList =
      "\t\t".toList ++ '<' :: ("span class=\"disabled\"".toList ++ ['>']) := rfl
  have all := (refers_element "span class=\"disabled\"".toList (by decide) plain
    closing_span).indented
  rw [front]
  simp only [List.append_assoc, List.cons_append, List.nil_append] at all ⊢
  exact all

/-- The current page is shown as what it is. -/
theorem refers_current {label : Text} (plain : '<' ∉ label) :
    Refers ("\t\t<span class=\"current\">".toList ++ label ++ "</span>".toList)
      [.current label] := by
  have front : "\t\t<span class=\"current\">".toList =
      "\t\t".toList ++ '<' :: ("span class=\"current\"".toList ++ ['>']) := rfl
  have all := (refers_element "span class=\"current\"".toList (by decide) plain
    closing_span).indented
  rw [front]
  simp only [List.append_assoc, List.cons_append, List.nil_append] at all ⊢
  exact all

theorem unmarked_digits (n : Nat) : '<' ∉ Numeral.ofNat n := by
  intro member
  exact absurd (Numeral.isDigit_of_mem_ofNat member) (by decide)

/-- The number of a page, as it is shown on page `current`. -/
def numberReference (function : Text) (current page : Nat) : Reference :=
  if page = current then .current (Numeral.ofNat page)
  else .link (some (Pane.fileName function .overview page)) (Numeral.ofNat page)

/-- The pages of a function, as a page links to them: the numbers of all pages, the current one
without a link, between the steps to the neighbours, as far as there are any. -/
def pageLinks (function : Text) (current count : Nat) : List Reference :=
  (if 1 < current then [.link (some (Pane.fileName function .overview (current - 1))) "&laquo;"]
    else []) ++
  (List.range' 1 count).map (numberReference function current) ++
  (if current < count then [.link (some (Pane.fileName function .overview (current + 1))) "&raquo;"]
    else [])

theorem refers_numberLink (function : Text) (current page : Nat) :
    Refers (numberLink function current page) [numberReference function current page] := by
  unfold numberLink numberReference
  split
  · exact refers_current (unmarked_digits page)
  · exact refers_pageLink function page (unmarked_digits page)

theorem refers_stepLink (function : Text) (here : Prop) [Decidable here] (page : Nat) {label : Text}
    (plain : '<' ∉ label) : Refers (stepLink function (if here then some page else none) label)
      (if here then [.link (some (Pane.fileName function .overview page)) label] else []) := by
  split
  · exact refers_pageLink function page plain
  · exact refers_disabled plain

theorem refers_pagination (function : Text) (current count : Nat) :
    Refers (pagination function current count) (pageLinks function current count) := by
  have numbers : List.Forall₂ Refers
      ((List.range count).map fun k => numberLink function current (k + 1))
      ((List.range count).map fun k => [numberReference function current (k + 1)]) := by
    rw [List.forall₂_map_left_iff, List.forall₂_map_right_iff, List.forall₂_same]
    exact fun k _ => refers_numberLink function current (k + 1)
  have marks : '<' ∉ "&laquo;".toList ∧ '<' ∉ "&raquo;".toList := by decide
  have back := refers_stepLink function (1 < current) (current - 1) marks.1
  have on := refers_stepLink function (current < count) (current + 1) marks.2
  have all := refers_join (List.rel_append (.cons back numbers) (.cons on .nil))
  rw [List.flatten_append, List.flatten_cons, List.flatten_singleton, ← List.flatMap_def,
    ← List.map_eq_flatMap] at all
  have same : (List.range count).map (fun k => numberReference function current (k + 1)) =
      (List.range' 1 count).map (numberReference function current) := by
    rw [List.range'_eq_map_range, List.map_map]
    exact List.map_congr_left fun k _ => by rw [Function.comp_apply, Nat.add_comm]
  rw [same] at all
  exact all

/-- What the entry of a function refers to. -/
theorem refers_indexEntry (function : Text) :
    Refers (indexEntry function)
      [.link (some (Pane.fileName function .overview 1)) (safe function)] := by
  have front : "\t\t<li><a href=\"".toList = "\t\t<li>".toList ++ "<a href=\"".toList := rfl
  have follows : closes ('<' :: "/a></li>".toList) = true ∧
      references ('<' :: "/a></li>".toList) = [] := by decide
  have item : Refers "\t\t<li>".toList [] := refers_literal (by decide)
  have all := item.append (refers_link (Pane.fileName function .overview 1)
    (not_mem_safe _ rfl function) follows)
  unfold indexEntry
  rw [front]
  simp only [List.append_assoc] at all ⊢
  exact all

theorem refers_index (functions : List Text) :
    Refers (index functions) (functions.map fun function =>
      .link (some (Pane.fileName function .overview 1)) (safe function)) := by
  rw [List.map_eq_flatMap]
  exact refers_join_map fun function _ => refers_indexEntry function

theorem reference?_other {t : Tag} (name : Text) (named : t.name = name)
    (h : name ∉ ["iframe".toList, "a".toList, "img".toList, "span".toList]) :
    t.reference? = none := by
  rw [← named] at h
  simp only [List.mem_cons, List.not_mem_nil, or_false, not_or] at h
  obtain ⟨frame, link, image, span⟩ := h
  rw [Tag.reference?, if_neg frame, if_neg link, if_neg image, if_neg fun current => span current.1]

/-- A choice of a style is no reference. -/
theorem refers_option (name : Text) {selected : Text} (plain : '<' ∉ selected ∧ '>' ∉ selected) :
    Refers ("\t\t\t<option value=\"".toList ++ safe name ++ "\"".toList ++ selected ++ ">".toList ++
      safe name ++ "</option>".toList) [] := by
  have front : "\t\t\t<option value=\"".toList =
      "\t".toList ++ ("\t\t".toList ++ '<' :: "option value=\"".toList) := rfl
  have follows : closes ('<' :: "/option>".toList) = true ∧
      references ('<' :: "/option>".toList) = [] := by decide
  have value := plain_tag "option value=\"".toList (by decide) name
  have tag : '<' ∉ "option value=\"".toList ++ safe name ++ ['"'] ++ selected ∧
      '>' ∉ "option value=\"".toList ++ safe name ++ ['"'] ++ selected := by
    simp only [List.mem_append (t := selected), not_or]
    exact ⟨⟨value.1, plain.1⟩, value.2, plain.2⟩
  have element := refers_element _ tag (not_mem_safe '<' rfl name) follows
  have other : Tag.name ⟨"option value=\"".toList ++ safe name ++ ['"'] ++ selected, safe name⟩ =
      "option".toList := by
    simp only [List.append_assoc]
    rfl
  rw [reference?_other _ other (by decide)] at element
  have all := (refers_plain (s := "\t".toList) (by decide)).append element.indented
  rw [front]
  simp only [List.append_assoc, List.cons_append] at all ⊢
  exact all

theorem refers_options (current : Text) (styles : List Text) :
    Refers (Style.options current styles) [] := by
  have all : Refers (Style.options current styles) (styles.flatMap fun _ => []) := by
    refine refers_join_map fun name _ => refers_option name ?_
    split <;> decide
  rw [List.flatMap_eq_nil_iff.2 fun _ _ => rfl] at all
  exact all

theorem reference?_image (target rest : Text) :
    Tag.reference? ⟨"img src=\"img/".toList ++ safe target ++ '"' :: rest, []⟩ =
      some (.image (some ("img/".toList ++ target))) := by
  have safe_target : safe ("img/".toList ++ target) = "img/".toList ++ safe target := by
    rw [safe, List.flatMap_append]
    rfl
  have value : Tag.attribute? "src" ⟨"img src=\"img/".toList ++ safe target ++ '"' :: rest, []⟩ =
      some ("img/".toList ++ target) := Tag.attribute?_safe "img".toList _ (by
        rw [safe_target]
        simp only [List.append_assoc]
        rfl)
  have name : Tag.name ⟨"img src=\"img/".toList ++ safe target ++ '"' :: rest, []⟩ =
      "img".toList := by
    simp only [List.append_assoc]
    rfl
  rw [Tag.reference?, name, if_neg (by decide), if_neg (by decide), if_pos rfl, value]

/-- What an image refers to. -/
theorem refers_image (name description : Text) :
    Refers (image name description) [.image (some ("img/".toList ++ name))] := by
  have front : "<img src=\"img/".toList = '<' :: "img src=\"img/".toList := rfl
  have rest : "\" alt=\"".toList = '"' :: " alt=\"".toList := rfl
  have named := plain_tag "img src=\"img/".toList (by decide) name
  have said := plain_tag " alt=\"".toList (by decide) description
  have tag : '<' ∉ "img src=\"img/".toList ++ safe name ++
        '"' :: (" alt=\"".toList ++ safe description ++ ['"']) ∧
      '>' ∉ "img src=\"img/".toList ++ safe name ++
        '"' :: (" alt=\"".toList ++ safe description ++ ['"']) := by
    rw [List.append_cons]
    simp only [List.mem_append (s := _ ++ ['"']), not_or]
    exact ⟨⟨named.1, said.1⟩, named.2, said.2⟩
  have other : Tag.name ⟨"img src=\"img/".toList ++ safe name ++
        '"' :: (" alt=\"".toList ++ safe description ++ ['"']), []⟩ = "img".toList := by
    simp only [List.append_assoc]
    rfl
  have all := refers_alone tag (by rw [other]; decide) (by rw [other]; decide)
  rw [reference?_image] at all
  unfold image
  rw [front, rest]
  simp only [List.append_assoc, List.cons_append] at all ⊢
  exact all

/-- Where there is no image, nothing is referred to. -/
theorem refers_noImage (name : Text) : Refers (noImage name) [] := by
  have front : "<p class=\"missing\">No control flow graph image (".toList =
    '<' :: ("p class=\"missing\"".toList ++ '>' :: "No control flow graph image (".toList) := rfl
  have ending : ").</p>".toList = ").".toList ++ '<' :: "/p>".toList := rfl
  have follows : closes ('<' :: "/p>".toList) = true ∧ references ('<' :: "/p>".toList) = [] := by
    decide
  have plain : '<' ∉ "No control flow graph image (".toList ++ safe name ++ ").".toList := by
    simp only [List.mem_append, not_or]
    exact ⟨⟨by decide, not_mem_safe _ rfl name⟩, by decide⟩
  have all := refers_element "p class=\"missing\"".toList (by decide) plain follows
  rw [reference?_other "p".toList rfl (by decide)] at all
  unfold noImage
  rw [front, ending]
  simp only [List.append_assoc, List.cons_append] at all ⊢
  exact all

theorem plain_inText (line : Text) : '<' ∉ inText line := by
  intro member
  obtain ⟨c, -, inside⟩ := List.mem_flatMap.1 member
  revert inside
  unfold textChar
  split_ifs with ampersand less greater <;> simp [*, Ne.symm]

/-- A span around a text is no reference, if it is none without the text. -/
theorem refers_span (inside : Text) {label : Text} (tag : '<' ∉ inside ∧ '>' ∉ inside)
    (plain : '<' ∉ label) (other : Tag.reference? ⟨inside, []⟩ = none) :
    Refers ('<' :: (inside ++ '>' :: (label ++ "</span>".toList))) [] := by
  have element := refers_element inside tag plain closing_span
  rw [Tag.reference?_label other label] at element
  exact element

open CodeTable in
/-- The number of a line refers to nothing. -/
theorem refers_numberCell (width number : Nat) : Refers (numberCell width number) [] := by
  have front : "<span class=\"normal\">".toList =
      '<' :: ("span class=\"normal\"".toList ++ ['>']) := rfl
  have plain : '<' ∉ aligned width number := by
    simp only [aligned, List.mem_append, List.mem_replicate, not_or]
    exact ⟨fun blank => absurd blank.2 (by decide), unmarked_digits number⟩
  have all := refers_span "span class=\"normal\"".toList (by decide) plain (by decide)
  unfold numberCell
  rw [front]
  simp only [List.append_assoc, List.cons_append, List.nil_append] at all ⊢
  exact all

open CodeTable in
/-- A line refers to nothing, highlighted or not. -/
theorem refers_lineCell (marked : Bool) (line : Text) : Refers (lineCell marked line) [] := by
  have front : "<span class=\"hll\">".toList = '<' :: ("span class=\"hll\"".toList ++ ['>']) := rfl
  unfold lineCell
  extract_lets cell
  have plain : '<' ∉ cell := by
    rw [List.mem_append, not_or]
    exact ⟨plain_inText line, by decide⟩
  split
  · have all := refers_span "span class=\"hll\"".toList (by decide) plain (by decide)
    rw [front]
    simp only [List.append_assoc, List.cons_append, List.nil_append] at all ⊢
    exact all
  · exact refers_plain plain

/-- A code table refers to nothing, whatever the code. -/
theorem refers_table (source : Text) (marked : List Int) :
    Refers (CodeTable.table source marked) [] := by
  unfold CodeTable.table
  extract_lets lines numbers width
  have numbered := refers_join_map (l := numbers) fun number _ => refers_numberCell width number
  have shown : Refers ((lines.zip numbers).flatMap fun entry =>
      CodeTable.lineCell ((entry.2 : Int) ∈ marked) entry.1)
      ((lines.zip numbers).flatMap fun _ => []) :=
    refers_flatMap fun entry _ => refers_lineCell _ entry.1
  rw [List.flatMap_eq_nil_iff.2 fun _ _ => rfl] at numbered shown
  have front : Refers ("<div class=\"chroma\"><table class=\"chromatable\"><tr><td class=\"linenos\">".toList
      ++ "<div class=\"linenodiv\"><pre>".toList) [] := by
    repeat rw [String.toList_ofList]
    exact refers_literal (by decide +kernel)
  have middle : Refers "</pre></div></td><td class=\"code\"><div><pre><span></span>".toList [] := by
    rw [String.toList_ofList]
    exact refers_literal (by decide +kernel)
  have back : Refers "</pre></div></td></tr></table></div>\n".toList [] := by
    rw [String.toList_ofList]
    exact refers_literal (by decide +kernel)
  exact (((front.append numbered).append middle).append shown).append back

/-! ## Pages -/

open Template

/-- The piece brings no tag with it. -/
def isQuiet : Piece → Bool
  | .char c => c != '<'
  | .field _ name => !isMarkup name
  | _ => true

theorem untagged_of_quiet {fields : Table Json} {pieces : List Piece} {s : Text}
    (quiet : ∀ piece ∈ pieces, isQuiet piece = true)
    (filled : Filled (fieldTexts fields) pieces s) : '<' ∉ s := by
  induction pieces generalizing s with
  | nil =>
    rw [filled_nil.1 filled]
    exact List.not_mem_nil
  | cons piece pieces ih =>
    obtain ⟨first, others⟩ := List.forall_mem_cons.1 quiet
    obtain ⟨t, u, rfl, stands, rest⟩ := filled_cons.1 filled
    rw [List.mem_append, not_or]
    refine ⟨?_, ih others rest⟩
    cases piece with
    | char c =>
      rw [show t = [c] from stands, List.mem_singleton]
      exact fun same => absurd first (by rw [← same]; decide)
    | dollar =>
      rw [show t = ['$'] from stands]
      decide
    | field braced name =>
      intro member
      exact absurd (unmarked_field (by simpa [isQuiet] using first) stands _ member) (by decide)
    | mistake => exact stands.elim

/-- A line that is one element, with fields in its label only. -/
def Labelled (line front inside label rest : Text) : Prop :=
  Piece.ofText line = (front ++ '<' :: (inside ++ ['>'])).map .char ++
      (Piece.ofText label ++ ('<' :: rest).map .char) ∧
    (∀ piece ∈ Piece.ofText label, isQuiet piece = true) ∧ '<' ∉ front ∧
    ('<' ∉ inside ∧ '>' ∉ inside) ∧ Tag.reference? ⟨inside, []⟩ = none ∧
    closes ('<' :: rest) = true ∧ references ('<' :: rest) = []

instance (line front inside label rest : Text) : Decidable (Labelled line front inside label rest) :=
  inferInstanceAs (Decidable (_ ∧ _))

variable {fields : Table Json} {s : Text}

theorem Labelled.refers {line front inside label rest : Text}
    (h : Labelled line front inside label rest)
    (filled : Filled (fieldTexts fields) (Piece.ofText line) s) : Refers s [] := by
  obtain ⟨cut, quiet, plain, tag, other, follows⟩ := h
  rw [cut, filled_append] at filled
  obtain ⟨_, _, rfl, literal, filled⟩ := filled
  obtain ⟨text, _, rfl, filled, behind⟩ := filled_append.1 filled
  have element := (refers_plain plain).append
    (refers_element inside tag (untagged_of_quiet quiet filled) follows)
  rw [filled_literal.1 literal, filled_literal.1 behind]
  rw [Tag.reference?_label other text] at element
  simp only [List.append_assoc, List.cons_append, List.nil_append] at element ⊢
  exact element

/-- The lines of a template in which there are fields, where no field crosses the end of a line and
the other lines refer to nothing. -/
def Lined (template : Text) (lines : List Text) : Prop :=
  Piece.ofText template = template.fullLines.flatMap Piece.ofText ∧
    (∀ line ∈ template.fullLines, '$' ∉ line → closes line = true ∧ references line = []) ∧
    template.fullLines.filter ('$' ∈ ·) = lines

instance (template : Text) (lines : List Text) : Decidable (Lined template lines) :=
  inferInstanceAs (Decidable (_ ∧ _))

/-- What a page refers to is what its lines with fields refer to. -/
theorem Lined.refers {template : Text} {lines : List Text} (h : Lined template lines)
    {found : List (List Reference)} (each : List.Forall₂ (fun line said => ∀ text,
      Filled (fieldTexts fields) (Piece.ofText line) text → Refers text said) lines found)
    (filled : Filled (fieldTexts fields) (Piece.ofText template) s) : Refers s found.flatten := by
  obtain ⟨cut, literal, rfl⟩ := h
  rw [cut, filled_flatMap] at filled
  obtain ⟨texts, rfl, filled⟩ := filled
  revert literal each
  generalize template.fullLines = lines at filled
  intro literal each
  induction filled generalizing found with
  | nil =>
    cases each
    exact refers_plain List.not_mem_nil
  | @cons line text lines texts first _ ih =>
    obtain ⟨head, tail⟩ := List.forall_mem_cons.1 literal
    rw [List.flatten_cons]
    by_cases dollar : '$' ∈ line
    · rw [List.filter_cons_of_pos (by simpa using dollar)] at each
      cases each with
      | cons own rest => exact (own text first).append (ih tail rest)
    · rw [List.filter_cons_of_neg (by simpa using dollar)] at each
      rw [Piece.ofText_plain dollar, filled_literal] at first
      rw [first]
      exact (refers_literal (head dollar)).append (ih tail each)

/-- A line that holds the markup of a field. -/
theorem refers_held (fields : Table Json) (key : Text) {markup : Text} {found : List Reference}
    (h : Refers markup found) (given : fields.get? key = some (.ofText markup))
    (holds : isMarkup key = true)
    (cut : Piece.ofText ('$' :: '\x7b' :: key ++ ['\x7d', '\n']) = [.field true key, .char '\n'])
    (filled : Filled (fieldTexts fields)
      (Piece.ofText ('$' :: '\x7b' :: key ++ ['\x7d', '\n'])) s) : Refers s found := by
  rw [cut] at filled
  obtain ⟨value, rest, rfl, stands, feed⟩ := filled_cons.1 filled
  have feed : rest = ['\n'] := filled_literal.1 feed
  obtain rfl : value = markup := by rw [field_ofText given stands, holds]; rfl
  have all := h.append (refers_plain (s := ['\n']) (by decide))
  rw [List.append_nil] at all
  rw [feed]
  exact all

/-- The line with the name of the input and that of the function. -/
def headerLine : Text :=
  "\t\t<a href=\"index.html\">$\x7bll_name\x7d</a> / <strong>$\x7bfunc_name\x7d</strong>\n"

theorem lined_overview : Lined Source.overview [
    "\t<title>$\x7bfunc_name\x7d: page $\x7bcur_page\x7d of $\x7bnpages\x7d</title>\n".toList,
    headerLine,
    "\t\t<span class=\"desc\">Step $\x7bstep\x7d$\x7bsub_step\x7d: $\x7bdesc\x7d</span>\n".toList,
    "$\x7bstyles_html\x7d\n".toList, "$\x7bpages_html\x7d\n".toList,
    "$\x7bframes_html\x7d\n".toList] := by
  unfold headerLine
  simp only [Source.overview, Source.text, List.flatMap_cons, List.flatMap_nil]
  repeat rw [String.toList_ofList]
  decide +kernel

/-- The name of the input is a link to the list of functions. -/
theorem refers_header {name : Text} (given : fields.get? "ll_name".toList = some (.ofText name))
    (filled : Filled (fieldTexts fields) (Piece.ofText headerLine) s) :
    Refers s [.link (some "index.html".toList) (safe name)] := by
  have cut : Piece.ofText headerLine =
      "\t\t<a href=\"index.html\">".toList.map .char ++ .field true "ll_name".toList ::
        ("</a> / ".toList.map .char ++
          Piece.ofText "<strong>$\x7bfunc_name\x7d</strong>\n".toList) := by
    unfold headerLine
    repeat rw [String.toList_ofList]
    decide +kernel
  have strong : Labelled "<strong>$\x7bfunc_name\x7d</strong>\n".toList [] "strong".toList
      "$\x7bfunc_name\x7d".toList "/strong>\n".toList := by decide +kernel
  have follows : closes ('<' :: "/a> / ".toList) = true ∧ references ('<' :: "/a> / ".toList) = [] := by
    decide
  rw [cut] at filled
  obtain ⟨value, _, rfl, stands, rest⟩ := filled_field.1 filled
  obtain ⟨_, t, rfl, literal, named⟩ := filled_append.1 rest
  obtain rfl : value = safe name := field_ofText given stands
  rw [filled_literal.1 literal]
  have all := ((refers_link "index.html".toList (not_mem_safe '<' rfl name)
    follows).indented).append (strong.refers named)
  have front : "\t\t<a href=\"index.html\">".toList =
      "\t\t".toList ++ ("<a href=\"".toList ++ (safe "index.html".toList ++ "\">".toList)) := by
    decide +kernel
  rw [front]
  simp only [List.append_assoc] at all ⊢
  exact all

/-- What an overview refers to: the list of functions, the pages of the function and the panes. -/
theorem refers_overview {r : Report} {function : Text} {page : Page Primitive} {count : Nat}
    {hasCode : Bool} (filled : Filled (fieldTexts (r.overviewFields function page count hasCode))
      (Piece.ofText Source.overview) s) :
    Refers s (.link (some "index.html".toList) (safe r.assemblyName) ::
      (pageLinks function page.number count ++
        (Pane.shown hasCode).map fun pane => .frame (some (pane.fileName function page.number)))) := by
  have title : Labelled
      "\t<title>$\x7bfunc_name\x7d: page $\x7bcur_page\x7d of $\x7bnpages\x7d</title>\n".toList
      "\t".toList "title".toList
      "$\x7bfunc_name\x7d: page $\x7bcur_page\x7d of $\x7bnpages\x7d".toList "/title>\n".toList := by
    repeat rw [String.toList_ofList]
    decide +kernel
  have step : Labelled
      "\t\t<span class=\"desc\">Step $\x7bstep\x7d$\x7bsub_step\x7d: $\x7bdesc\x7d</span>\n".toList
      "\t\t".toList "span class=\"desc\"".toList
      "Step $\x7bstep\x7d$\x7bsub_step\x7d: $\x7bdesc\x7d".toList "/span>\n".toList := by
    repeat rw [String.toList_ofList]
    decide +kernel
  have styles := fun text => refers_held (s := text)
    (r.overviewFields function page count hasCode) "styles_html".toList
    (refers_options r.style Style.names) rfl rfl rfl
  have pages := fun text => refers_held (s := text)
    (r.overviewFields function page count hasCode) "pages_html".toList
    (refers_pagination function page.number count) rfl rfl rfl
  have panes := fun text => refers_held (s := text)
    (r.overviewFields function page count hasCode) "frames_html".toList
    (refers_frames function page.number hasCode) rfl rfl rfl
  have all := lined_overview.refers (.cons (fun _ => title.refers)
    (.cons (fun _ => refers_header rfl) (.cons (fun _ => step.refers)
      (.cons styles (.cons pages (.cons panes .nil)))))) filled
  simpa using all

/-- How the tag goes on that names the style sheet of a style. -/
def sheetStart : Text := " id=\"chroma_style\" rel=\"stylesheet\" href=\"inc/css/chroma_"

/-- The line that names the style sheet of a style. -/
def sheetLine : Text := "\t<link".toList ++ sheetStart ++ "$\x7bstyle\x7d.css\">\n".toList

theorem refers_sheetLine (filled : Filled (fieldTexts fields) (Piece.ofText sheetLine) s) :
    Refers s [] := by
  have cut : Piece.ofText sheetLine = ('\t' :: '<' :: ("link".toList ++ sheetStart)).map .char ++
      .field true "style".toList :: ".css\">\n".toList.map .char := by
    unfold sheetLine sheetStart
    repeat rw [String.toList_ofList]
    decide +kernel
  rw [cut] at filled
  obtain ⟨value, _, rfl, stands, rest⟩ := filled_field.1 filled
  have unmarked := unmarked_field rfl stands
  have tag : '<' ∉ "link".toList ++ (sheetStart ++ (value ++ ".css\"".toList)) ∧
      '>' ∉ "link".toList ++ (sheetStart ++ (value ++ ".css\"".toList)) := by
    simp only [List.mem_append, not_or]
    exact ⟨⟨by decide, by decide, fun member => absurd (unmarked _ member) (by decide), by decide⟩,
      by decide, by decide, fun member => absurd (unmarked _ member) (by decide), by decide⟩
  have name : Tag.name ⟨"link".toList ++ (sheetStart ++ (value ++ ".css\"".toList)), []⟩ =
    "link".toList := rfl
  have alone := refers_alone tag (by rw [name]; decide) (by rw [name]; decide)
  rw [reference?_other _ name (by decide)] at alone
  have all := ((refers_plain (s := ['\t']) (by decide)).append alone).append
    (refers_plain (s := ['\n']) (by decide))
  rw [filled_literal.1 rest]
  simp only [List.append_assoc, List.cons_append, List.nil_append] at all ⊢
  exact all

/-- The line that says what a pane shows. -/
def describedLine : Text := "\t<p class=\"desc\">$\x7bdesc\x7d</p>\n"

theorem refers_describedLine (filled : Filled (fieldTexts fields) (Piece.ofText describedLine) s) :
    Refers s [] := by
  have described : Labelled describedLine "\t".toList "p class=\"desc\"".toList
      "$\x7bdesc\x7d".toList "/p>\n".toList := by
    unfold describedLine
    repeat rw [String.toList_ofList]
    decide +kernel
  exact described.refers filled

/-- The templates of the panes that show a text, with their titles. -/
def codeTemplates : List (Text × Text) := [
  (Source.code, "$\x7bfunc_name\x7d: Original C source code"),
  (Source.assembly, "$\x7bfunc_name\x7d: LLVM IR assembly"),
  (Source.decompiled, "$\x7bfunc_name\x7d: Reconstructed Go source code")]

/-- The line with the title of a pane. -/
def titleLine (title : Text) : Text := "\t<title>".toList ++ title ++ "</title>\n".toList

theorem lined_code : ∀ entry ∈ codeTemplates,
    Lined entry.1 [titleLine entry.2, sheetLine, describedLine, "$\x7bcode_html\x7d\n".toList] ∧
      Labelled (titleLine entry.2) "\t".toList "title".toList entry.2 "/title>\n".toList := by
  unfold codeTemplates titleLine sheetLine sheetStart describedLine
  simp only [Source.code, Source.assembly, Source.decompiled, Source.text, List.flatMap_cons,
    List.flatMap_nil]
  repeat rw [String.toList_ofList]
  decide +kernel

/-- The panes that show a text refer to nothing, whatever the text is. -/
theorem refers_codePage {r : Report} {function source : Text} {description : WideText}
    {marked : List Int} {entry : Text × Text} (listed : entry ∈ codeTemplates)
    (filled : Filled (fieldTexts
      (r.codeFields function description (CodeTable.table source marked)))
      (Piece.ofText entry.1) s) : Refers s [] := by
  obtain ⟨lined, titled⟩ := lined_code entry listed
  have shown := fun text => refers_held (s := text)
    (r.codeFields function description (CodeTable.table source marked)) "code_html".toList
    (refers_table source marked) rfl rfl rfl
  have all := lined.refers (.cons (fun _ => titled.refers) (.cons (fun _ => refers_sheetLine)
    (.cons (fun _ => refers_describedLine) (.cons shown .nil)))) filled
  simpa using all

/-- What the pane with the graph refers to is what its markup for the graph does. -/
theorem refers_graphPage {function graph : Text} {page : Page Primitive} {found : List Reference}
    (h : Refers graph found) (filled : Filled (fieldTexts (Report.graphFields function page graph))
      (Piece.ofText Source.graph) s) : Refers s found := by
  have lined : Lined Source.graph [
      "\t<title>$\x7bfunc_name\x7d: control flow analysis</title>\n".toList, describedLine,
      "$\x7bgraph_html\x7d\n".toList] := by
    unfold describedLine
    simp only [Source.graph, Source.text, List.flatMap_cons, List.flatMap_nil]
    repeat rw [String.toList_ofList]
    decide +kernel
  have title : Labelled "\t<title>$\x7bfunc_name\x7d: control flow analysis</title>\n".toList
      "\t".toList "title".toList "$\x7bfunc_name\x7d: control flow analysis".toList "/title>\n".toList := by
    repeat rw [String.toList_ofList]
    decide +kernel
  have shown := fun text => refers_held (s := text)
    (Report.graphFields function page graph) "graph_html".toList h rfl rfl rfl
  have all := lined.refers (.cons (fun _ => title.refers) (.cons (fun _ => refers_describedLine)
    (.cons shown .nil))) filled
  simpa using all

/-- What the list of functions refers to: the first page of each. -/
theorem refers_indexPage {name : Text} {functions : List Text}
    (filled : Filled (fieldTexts [("ll_name", .ofText name), ("funcs_html", .ofText (index functions))])
      (Piece.ofText Source.index) s) :
    Refers s (functions.map fun function =>
      .link (some (Pane.fileName function .overview 1)) (safe function)) := by
  have lined : Lined Source.index [
      "\t<title>$\x7bll_name\x7d</title>\n".toList,
      "\t<h1>Control flow analysis of $\x7bll_name\x7d</h1>\n".toList,
      "$\x7bfuncs_html\x7d\n".toList] := by
    simp only [Source.index, Source.text, List.flatMap_cons, List.flatMap_nil]
    repeat rw [String.toList_ofList]
    decide +kernel
  have title : Labelled "\t<title>$\x7bll_name\x7d</title>\n".toList "\t".toList "title".toList
      "$\x7bll_name\x7d".toList "/title>\n".toList := by
    repeat rw [String.toList_ofList]
    decide +kernel
  have heading : Labelled "\t<h1>Control flow analysis of $\x7bll_name\x7d</h1>\n".toList
      "\t".toList "h1".toList "Control flow analysis of $\x7bll_name\x7d".toList "/h1>\n".toList := by
    repeat rw [String.toList_ofList]
    decide +kernel
  have listed := fun text => refers_held (s := text)
    [("ll_name", .ofText name), ("funcs_html", .ofText (index functions))] "funcs_html".toList
    (refers_index functions) rfl rfl rfl
  have all := lined.refers (.cons (fun _ => title.refers) (.cons (fun _ => heading.refers)
    (.cons listed .nil))) filled
  simpa using all

end Markup

end FlowReport
