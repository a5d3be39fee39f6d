import FlowReport.Text.Lines
import Mathlib.Data.List.Infix

/-!
# Joined lines

Texts that are made of lines with a mark between neighbours, most often a line feed. A line that
was cut from a text holds no break, so the marks of a joined text are its only line feeds.
-/

namespace FlowReport.Text

variable {mark : Text}

theorem join_cons {piece : Text} {pieces : List Text} (more : pieces ≠ []) :
    join mark (piece :: pieces) = piece ++ mark ++ join mark pieces := by
  cases pieces with
  | nil => exact absurd rfl more
  | cons next pieces => rfl

theorem join_append {front back : List Text} (left : front ≠ []) (right : back ≠ []) :
    join mark (front ++ back) = join mark front ++ mark ++ join mark back := by
  induction front with
  | nil => exact absurd rfl left
  | cons piece front ih =>
    cases front with
    | nil => exact join_cons right
    | cons next front =>
      rw [List.cons_append, join_cons (by simp), ih (List.cons_ne_nil _ _),
        join_cons (List.cons_ne_nil next front)]
      simp only [List.append_assoc]

/-- A stretch of the pieces makes a stretch of the text. -/
theorem join_infix {part whole : List Text} (h : part <:+: whole) :
    join mark part <:+: join mark whole := by
  obtain ⟨front, back, rfl⟩ := h
  have left : ∃ u, join mark (front ++ part) = u ++ join mark part := by
    cases front with
    | nil => exact ⟨[], rfl⟩
    | cons piece front =>
      cases part with
      | nil => exact ⟨_, (List.append_nil _).symm⟩
      | cons line part => exact ⟨_, join_append (List.cons_ne_nil _ _) (List.cons_ne_nil _ _)⟩
  have right : ∃ v, join mark (front ++ part ++ back) = join mark (front ++ part) ++ v := by
    cases back with
    | nil => exact ⟨[], by simp⟩
    | cons piece back =>
      cases h : front ++ part with
      | nil => exact ⟨_, rfl⟩
      | cons line rest =>
        exact ⟨_, by rw [join_append (List.cons_ne_nil _ _) (List.cons_ne_nil _ _),
          List.append_assoc]⟩
  obtain ⟨u, hu⟩ := left
  obtain ⟨v, hv⟩ := right
  exact ⟨u, v, by rw [hv, hu]⟩

/-- The line feeds of joined lines are those between neighbours. -/
theorem count_join {ls : List Text} (unbroken : ∀ l ∈ ls, '\n' ∉ l) (nonempty : ls ≠ []) :
    (join ['\n'] ls).count '\n' + 1 = ls.length := by
  induction ls with
  | nil => exact absurd rfl nonempty
  | cons line ls ih =>
    have none : line.count '\n' = 0 :=
      List.count_eq_zero_of_not_mem (unbroken line List.mem_cons_self)
    cases ls with
    | nil => simpa [join] using none
    | cons next ls =>
      have rest := ih (fun l hl => unbroken l (List.mem_cons_of_mem _ hl)) (by simp)
      rw [join_cons (by simp), List.count_append, List.count_append, none]
      simp only [List.count_singleton_self, List.length_cons] at rest ⊢
      omega

/-- The lines of a text hold no break. -/
theorem unbroken_lines (s : Text) : ∀ line ∈ lines s, ∀ c ∈ line, isLineBreak c = false := by
  unfold lines
  fun_induction brokenLines s with
  | case1 => simp
  | case2 s ih => simpa using ih
  | case3 c s _ _ ih => simpa using ih
  | case4 c s _ hc hs _ => simpa using hc
  | case5 c s _ hc body ending rest hs ih =>
    rw [hs] at ih
    simp only [List.map_cons, List.forall_mem_cons] at ih ⊢
    exact ⟨⟨by simpa using hc, ih.1⟩, ih.2⟩

end FlowReport.Text
