import FlowReport.Page.CodeTable
import FlowReport.Proofs.Documents
import FlowReport.Proofs.Fragments
import FlowReport.Proofs.PageReferences
import FlowReport.Proofs.Results
import FlowReport.Proofs.Runs
import FlowReport.Proofs.Tags

/-!
# The lines of a code table

A table numbers the lines of its text between line feeds, and so does the search for a fragment.
Preparing the text changes what stands on its lines and not where they end. So a line of the table
is highlighted for some fragments if and only if the first occurrence of one of them touches the
line of the text with that number.
-/

namespace FlowReport

namespace Text

/-- The lines of a text between its line feeds. An empty last one behind a line feed does not
count, while an empty text has one line. -/
def feedLines (s : Text) : List Text :=
  let pieces := split '\n' s
  if 1 < pieces.length ∧ pieces.getLast? = some [] then pieces.dropLast else pieces

variable {s first : Text} {rest : List Text}

theorem feedLines_of_split (h : split '\n' s = first :: rest) :
    feedLines s = first :: if rest.getLast? = some [] then rest.dropLast else rest := by
  rw [feedLines, h]
  cases rest with
  | nil => rfl
  | cons next rest =>
    have long : 1 < (first :: next :: rest).length := by simp
    simp only [long, true_and, List.getLast?_cons_cons]
    split
    · rw [List.dropLast_cons_of_ne_nil (List.cons_ne_nil _ _)]
    · rfl

/-- A line feed at the end makes no line of its own. -/
theorem feedLines_concat (s : Text) : feedLines (s ++ ['\n']) = split '\n' s := by
  have pieces : split '\n' (s ++ ['\n']) = split '\n' s ++ [[]] := split_at_mark '\n' s []
  have long : 1 < (split '\n' s ++ [([] : Text)]).length := by
    have := List.length_pos_iff.2 (split_ne_nil '\n' s)
    rw [List.length_append, List.length_singleton]
    omega
  rw [feedLines, pieces]
  simp only [long, List.getLast?_concat, and_self, if_true, List.dropLast_concat]

/-- Without one the last line counts. -/
theorem feedLines_of_open (h : s.getLast? ≠ some '\n') : feedLines s = split '\n' s := by
  rcases List.eq_nil_or_concat s with rfl | ⟨front, c, rfl⟩
  · rfl
  · rw [List.concat_eq_append] at h ⊢
    have other : '\n' ∉ [c] := by
      rw [List.getLast?_concat] at h
      simpa [eq_comm] using h
    rw [feedLines, split_append other, if_neg]
    simp

end Text

namespace LineRange

theorem mem_numbers_iff {r : LineRange} {i : Int} : i ∈ r.numbers ↔ r.first ≤ i ∧ i ≤ r.last := by
  rw [numbers, List.mem_map]
  constructor
  · rintro ⟨k, inside, rfl⟩
    rw [List.mem_range] at inside
    omega
  · intro h
    exact ⟨(i - r.first).toNat, List.mem_range.2 (by omega), by omega⟩

/-- Dropping repetitions drops no number. -/
theorem mem_dedup_iff {i : Int} {l : List Int} : i ∈ expand.dedup l ↔ i ∈ l := by
  fun_induction expand.dedup l with
  | case1 a rest ih =>
    rw [ih]
    simp
  | case2 a b rest _ ih => rw [List.mem_cons, ih, ← List.mem_cons]
  | case3 => rfl

theorem mem_expand_iff {ranges : List LineRange} {i : Int} :
    i ∈ expand ranges ↔ ∃ r ∈ ranges, r.first ≤ i ∧ i ≤ r.last := by
  simp only [expand, mem_dedup_iff, List.mem_mergeSort, List.mem_flatMap, mem_numbers_iff]

end LineRange

namespace CodeTable

open Text LineRange

/-! ## Prepared lines -/

/-- The text without a byte order mark at its front. -/
def unmarked (s : Text) : Text := if s.head? = some '\ufeff' then s.drop 1 else s

theorem split_append_left {mark : Char} {u : Text} (unbroken : mark ∉ u) (s : Text) :
    split mark (u ++ s) = (split mark s).modifyHead (u ++ ·) := by
  obtain ⟨piece, pieces, cut⟩ := List.exists_cons_of_ne_nil (split_ne_nil mark s)
  induction u with
  | nil => simp [cut]
  | cons c u ih =>
    rw [List.mem_cons, not_or] at unbroken
    rw [List.cons_append, split, if_neg (Ne.symm unbroken.1), ih unbroken.2, cut]
    rfl

/-- Blanks for tabs leave the line feeds where they are, and every line but the first begins in the
first column. -/
theorem split_expandTabs {s first : Text} {rest : List Text} (column : Nat)
    (h : split '\n' s = first :: rest) :
    split '\n' (expandTabs column s) = expandTabs column first :: rest.map (expandTabs 0) := by
  induction s generalizing column first rest with
  | nil =>
    cases h
    rfl
  | cons c s ih =>
    obtain ⟨piece, pieces, cut⟩ := List.exists_cons_of_ne_nil (split_ne_nil '\n' s)
    rw [split, cut] at h
    by_cases feed : c = '\n'
    · rw [if_pos feed] at h
      cases h
      have kept : expandTabs column (c :: s) = c :: expandTabs 0 s := by
        rw [expandTabs, if_neg (by rw [feed]; decide), if_pos feed]
      rw [kept, split, if_pos feed, ih 0 cut]
      rfl
    · rw [if_neg feed] at h
      cases h
      by_cases tab : c = '\t'
      · have blank : '\n' ∉ List.replicate (tabWidth - column % tabWidth) ' ' := fun member =>
          absurd (List.eq_of_mem_replicate member) (by decide)
        simp only [expandTabs, if_pos tab]
        rw [split_append_left blank, ih _ cut]
        rfl
      · simp only [expandTabs, if_neg tab, if_neg feed]
        rw [split, if_neg feed, ih _ cut]

/-- A tab is at least one blank wide. -/
theorem expandTabs_eq_nil_iff {column : Nat} {s : Text} : expandTabs column s = [] ↔ s = [] := by
  cases s with
  | nil => simp [expandTabs]
  | cons c s =>
    have wide : tabWidth - column % tabWidth ≠ 0 := by
      have : column % 3 < 3 := Nat.mod_lt _ (by decide)
      simp only [tabWidth]
      omega
    unfold expandTabs
    split <;> simp [wide]

/-- The lines of a text with blanks for tabs are its lines with blanks for tabs. -/
theorem feedLines_expandTabs (s : Text) :
    feedLines (expandTabs 0 s) = (feedLines s).map (expandTabs 0) := by
  obtain ⟨first, rest, cut⟩ := List.exists_cons_of_ne_nil (split_ne_nil '\n' s)
  have last : (rest.map (expandTabs 0)).getLast? = some [] ↔ rest.getLast? = some [] := by
    rw [List.getLast?_map, Option.map_eq_some_iff]
    simp only [expandTabs_eq_nil_iff, exists_eq_right]
  rw [feedLines_of_split cut, feedLines_of_split (split_expandTabs 0 cut), List.map_cons,
    if_congr last rfl rfl]
  split
  · rw [List.map_dropLast]
  · rfl

theorem rows_closed (s : Text) : rows (closed s) = feedLines s := by
  have ended : ∀ t : Text, rows (t ++ ['\n']) = split '\n' t := by
    intro t
    rw [rows, show split '\n' (t ++ ['\n']) = split '\n' t ++ [[]] from split_at_mark '\n' t [],
      List.dropLast_concat]
  unfold closed
  split
  · rename_i ends
    rw [← List.dropLast_append_getLast? _ ends, ended, feedLines_concat]
  · rename_i ends
    rw [ended, feedLines_of_open ends]

/-- The lines of a table: those of the text, without a byte order mark, with unified line breaks and
with blanks for tabs. -/
theorem rows_prepared (s : Text) :
    rows (prepared s) = (feedLines (unmarked s).unifyBreaks).map (expandTabs 0) := by
  show rows (closed (expandTabs 0 (unmarked s).unifyBreaks)) = _
  rw [rows_closed, feedLines_expandTabs]

/-- The cell of a line: the line, escaped and ended, in a highlighting span if it is marked. -/
structure ShowsLine (cell line : Text) (marked : Prop) : Prop where
  wrapped : marked → cell = "<span class=\"hll\">" ++ (Markup.inText line ++ ['\n']) ++ "</span>"
  bare : ¬ marked → cell = Markup.inText line ++ ['\n']
  opens_iff : "<span class=\"hll\">".toList <+: cell ↔ marked

/-- The text is a table with two columns: the numbers of the lines from one on, and the lines. -/
def Shows (html : Text) (lines : List Text) (marked : Nat → Prop) : Prop :=
  ∃ numbers cells : List Text,
    html = "<div class=\"chroma\"><table class=\"chromatable\"><tr><td class=\"linenos\">" ++
      "<div class=\"linenodiv\"><pre>" ++ join ['\n'] numbers ++
      "</pre></div></td><td class=\"code\"><div><pre><span></span>" ++ cells.flatten ++
      "</pre></div></td></tr></table></div>\n" ∧
    numbers.length = lines.length ∧ cells.length = lines.length ∧
    ∀ k line, lines[k]? = some line →
      numbers[k]? = some (numberCell (Numeral.ofNat lines.length).length (k + 1)) ∧
      ∃ cell, cells[k]? = some cell ∧ ShowsLine cell line (marked (k + 1))

/-- An escaped line has no bracket of its own, so only the highlighting span opens one. -/
theorem showsLine_lineCell (wrapped : Bool) (line : Text) :
    ShowsLine (lineCell wrapped line) line (wrapped = true) where
  wrapped := by
    rintro rfl
    rfl
  bare := by
    intro plain
    rw [Bool.not_eq_true] at plain
    rw [plain]
    rfl
  opens_iff := by
    cases wrapped with
    | true =>
      refine iff_of_true ?_ rfl
      show _ <+: "<span class=\"hll\">".toList ++ _ ++ _
      rw [List.append_assoc]
      exact List.prefix_append _ _
    | false =>
      refine iff_of_false ?_ Bool.false_ne_true
      intro opens
      have member : '<' ∈ Markup.inText line ++ ['\n'] := opens.subset (by decide)
      rw [List.mem_append] at member
      exact member.elim (Markup.plain_inText line) (by decide)

/-- The table of a text shows its prepared lines, with marks on some of their numbers. -/
theorem shows_table (source : Text) (marked : List Int) :
    Shows (table source marked) (rows (prepared source)) fun n => (n : Int) ∈ marked := by
  unfold table
  extract_lets lines numbers width
  have length : numbers.length = lines.length := by simp [numbers]
  refine ⟨numbers.map (numberCell width),
    (lines.zip numbers).map fun entry => lineCell ((entry.2 : Int) ∈ marked) entry.1, ?_, ?_, ?_, ?_⟩
  · rw [← List.flatMap_def]
  · rw [List.length_map, length]
  · rw [List.length_map, List.length_zip, length, Nat.min_self]
  intro k line there
  have inside : k < lines.length := (List.getElem?_eq_some_iff.1 there).1
  have number : numbers[k]? = some (k + 1) := by
    simp only [numbers, List.getElem?_map, List.getElem?_range inside, Option.map_some]
  refine ⟨by rw [List.getElem?_map, number]; rfl, lineCell (((k + 1 : Nat) : Int) ∈ marked) line,
    ?_, ?_⟩
  · have entry : (lines.zip numbers)[k]? = some (line, k + 1) :=
      List.getElem?_zip_eq_some.2 ⟨there, number⟩
    rw [List.getElem?_map, entry]
    rfl
  · have cell := showsLine_lineCell (((k + 1 : Nat) : Int) ∈ marked) line
    rw [decide_eq_true_eq] at cell
    exact cell

/-- Where nothing is to be highlighted, the table of a text shows the lines of the text and nothing
else. -/
theorem shows_table_expand_nil (source : Text) :
    Shows (table source (expand [])) ((feedLines (unmarked source).unifyBreaks).map (expandTabs 0))
      fun _ => False := by
  have shows := shows_table source (expand [])
  rw [rows_prepared] at shows
  simpa [mem_expand_iff] using shows

end CodeTable

end FlowReport
