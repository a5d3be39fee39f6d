import FlowReport.Text.Lines
import Mathlib.Data.List.Basic

/-!
# Ended lines

A text whose last line is ended can be put before another one: its lines stay what they are. Where
line feeds are the only breaks, the lines of a text are counted by them: one line for each line feed
that ends a line, and one more for a last line that is not ended.
-/

namespace FlowReport

namespace Text

/-- The text is empty or its last line is ended. -/
def Ended (s : Text) : Prop := s = [] ∨ s.getLast? = some '\n'

instance (s : Text) : Decidable (Ended s) := inferInstanceAs (Decidable (_ ∨ _))

/-- A line ends between the two texts: what the first one ends with is a break, and nothing of the
second one belongs to it. -/
def Parted (s s' : Text) : Prop :=
  ∀ c ∈ s.getLast?, isLineBreak c = true ∧ (c = '\r' → s'.head? ≠ some '\n')

theorem Parted.behind {c : Char} {s s' : Text} (h : Parted (c :: s) s') : Parted s s' := by
  cases s with
  | nil => nofun
  | cons d s => exact h

theorem Ended.parted {s : Text} (ended : Ended s) (s' : Text) : Parted s s' := by
  intro c last
  rcases ended with rfl | feed
  · cases last
  · obtain rfl : c = '\n' := Option.some.inj (last.symm.trans feed)
    exact ⟨by decide, fun carriage => absurd carriage (by decide)⟩

/-- A text without lines is empty. -/
theorem eq_nil_of_brokenLines {s : Text} (none : brokenLines s = []) : s = [] := by
  have whole := flatten_fullLines s
  rw [fullLines, none] at whole
  exact whole.symm

/-- Lines that are ended stay as they are when more text follows. -/
theorem brokenLines_append {s s' : Text} (parted : Parted s s') :
    brokenLines (s ++ s') = brokenLines s ++ brokenLines s' := by
  fun_induction brokenLines s with
  | case1 => rfl
  | case2 s ih =>
    rw [List.cons_append, List.cons_append, brokenLines, ih parted.behind.behind]
    rfl
  | case3 c s single isBreak ih =>
    -- a carriage return that is a break of its own has no line feed behind it
    have single' : ∀ rest, c = '\r' → s ++ s' = '\n' :: rest → False := by
      intro rest hc same
      cases s with
      | nil => exact (parted c rfl).2 hc (by rw [show s' = _ from same]; rfl)
      | cons d s =>
        rw [List.cons_append, List.cons.injEq] at same
        exact single s hc (by rw [same.1])
    rw [List.cons_append, brokenLines.eq_3 _ _ single', if_pos isBreak, ih parted.behind]
    rfl
  | case4 c s single noBreak none ih =>
    obtain rfl := eq_nil_of_brokenLines none
    exact absurd (parted c rfl).1 noBreak
  | case5 c s single noBreak body ending rest some ih =>
    have nonempty : s ≠ [] := by
      rintro rfl
      cases some
    have single' : ∀ rest, c = '\r' → s ++ s' = '\n' :: rest → False := by
      intro rest hc same
      obtain ⟨d, s, rfl⟩ := List.exists_cons_of_ne_nil nonempty
      rw [List.cons_append, List.cons.injEq] at same
      exact single s hc (by rw [same.1])
    rw [List.cons_append, brokenLines.eq_3 _ _ single', if_neg noBreak, ih parted.behind, some]
    rfl

theorem lines_append {s s' : Text} (parted : Parted s s') :
    lines (s ++ s') = lines s ++ lines s' := by
  rw [lines, brokenLines_append parted, List.map_append]
  rfl

theorem fullLines_append {s s' : Text} (parted : Parted s s') :
    fullLines (s ++ s') = fullLines s ++ fullLines s' := by
  rw [fullLines, brokenLines_append parted, List.map_append]
  rfl

/-- The text holds no break. -/
def Unbroken (s : Text) : Prop := ∀ c ∈ s, isLineBreak c = false

instance (s : Text) : Decidable (Unbroken s) :=
  List.decidableBAll (fun c => isLineBreak c = false) s

/-- A break ends the line that is empty in front of it. -/
theorem exists_brokenLines_of_break {c : Char} (isBreak : isLineBreak c = true) (s : Text) :
    ∃ ending rest, brokenLines (c :: s) = ([], ending) :: rest := by
  rw [brokenLines.eq_def]
  split
  · rename_i none
    cases none
  · exact ⟨_, _, rfl⟩
  · rename_i same
    obtain ⟨rfl, -⟩ := List.cons.inj same
    exact ⟨_, _, if_pos isBreak⟩

/-- A text without a break is one line up to the break behind it. -/
theorem lines_append_of_unbroken {s s' : Text} (nonempty : s ≠ []) (unbroken : Unbroken s)
    (ends : ∀ c ∈ s'.head?, isLineBreak c = true) : lines (s ++ s') = s :: (lines s').tail := by
  suffices broken : ∃ ending, brokenLines (s ++ s') = (s, ending) :: (brokenLines s').tail by
    obtain ⟨ending, broken⟩ := broken
    rw [lines, broken, List.map_cons, List.map_tail]
    rfl
  induction s with
  | nil => exact absurd rfl nonempty
  | cons c s ih =>
    obtain ⟨own, others⟩ := List.forall_mem_cons.1 unbroken
    have single : ∀ rest, c = '\r' → s ++ s' = '\n' :: rest → False := by
      rintro rest rfl -
      exact absurd own (by decide)
    rw [List.cons_append, brokenLines.eq_3 _ _ single, own]
    cases s with
    | nil =>
      cases s' with
      | nil => exact ⟨[], rfl⟩
      | cons d s' =>
        obtain ⟨ending, rest, broken⟩ := exists_brokenLines_of_break (ends d rfl) s'
        rw [List.nil_append, broken]
        exact ⟨ending, rfl⟩
    | cons d s =>
      obtain ⟨ending, broken⟩ := ih (List.cons_ne_nil d s) others
      rw [broken]
      exact ⟨ending, rfl⟩

/-- A text without a break is one line. -/
theorem lines_of_unbroken {s : Text} (nonempty : s ≠ []) (unbroken : Unbroken s) :
    lines s = [s] := by
  have alone : lines (s ++ []) = [s] := lines_append_of_unbroken nonempty unbroken nofun
  rwa [List.append_nil] at alone

/-- Rows with line feeds between them are lines. -/
theorem lines_rows {row back : Text} {rows : List Text}
    (solid : ∀ r ∈ row :: rows, r ≠ [] ∧ Unbroken r)
    (ends : ∀ c ∈ back.head?, isLineBreak c = true) :
    lines (row ++ (rows.flatMap ('\n' :: ·) ++ back)) = row :: (rows ++ (lines back).tail) := by
  induction rows generalizing row with
  | nil => exact lines_append_of_unbroken (solid row (by simp)).1 (solid row (by simp)).2 ends
  | cons next rows ih =>
    obtain ⟨⟨nonempty, unbroken⟩, others⟩ := List.forall_mem_cons.1 solid
    have fed : ∀ s : Text, lines ('\n' :: s) = [] :: lines s := by
      intro s
      rw [lines, brokenLines.eq_3 _ _ (by simp), if_pos (by decide)]
      rfl
    rw [List.flatMap_cons, List.append_assoc, List.cons_append,
      lines_append_of_unbroken nonempty unbroken (by simp; decide), fed, List.tail_cons, ih others,
      List.cons_append]

/-- Line feeds are the only breaks of the text. -/
def OnlyFeeds (s : Text) : Prop := ∀ c ∈ s, isLineBreak c = true → c = '\n'

instance (s : Text) : Decidable (OnlyFeeds s) :=
  List.decidableBAll (fun c => isLineBreak c = true → c = '\n') s

theorem OnlyFeeds.append_iff {s t : Text} : OnlyFeeds (s ++ t) ↔ OnlyFeeds s ∧ OnlyFeeds t :=
  List.forall_mem_append

/-- The last character of a text that has some ends its last line or is part of it, so the line feeds
before it count the other lines. -/
theorem length_fullLines {s : Text} (feeds : OnlyFeeds s) (nonempty : s ≠ []) :
    (fullLines s).length = s.dropLast.count '\n' + 1 := by
  unfold fullLines
  rw [List.length_map]
  fun_induction brokenLines s with
  | case1 => exact absurd rfl nonempty
  | case2 s => exact absurd (feeds '\r' List.mem_cons_self (by decide)) (by decide)
  | case3 c s _ isBreak ih =>
    obtain ⟨head, tail⟩ := List.forall_mem_cons.1 feeds
    obtain rfl := head isBreak
    cases s with
    | nil => rfl
    | cons d s =>
      rw [List.length_cons, ih tail (List.cons_ne_nil _ _), List.dropLast_cons_of_ne_nil
        (List.cons_ne_nil _ _), List.count_cons_self]
  | case4 c s _ _ none =>
    rw [eq_nil_of_brokenLines none]
    rfl
  | case5 c s _ noBreak body ending rest some ih =>
    have more : s ≠ [] := by
      rintro rfl
      cases some
    have other : c ≠ '\n' := by
      rintro rfl
      exact noBreak (by decide)
    rw [some] at ih
    rw [List.dropLast_cons_of_ne_nil more, List.count_cons_of_ne other]
    exact ih (List.forall_mem_cons.1 feeds).2 more

/-- Ended lines are counted by their line feeds. -/
theorem length_fullLines_of_ended {s : Text} (feeds : OnlyFeeds s) (ended : Ended s) :
    (fullLines s).length = s.count '\n' := by
  rcases ended with rfl | last
  · rfl
  · have nonempty : s ≠ [] := by
      rintro rfl
      cases last
    rw [length_fullLines feeds nonempty]
    conv_rhs => rw [← List.dropLast_append_getLast? _ last]
    rw [List.count_append, List.count_singleton_self]

end Text

end FlowReport
