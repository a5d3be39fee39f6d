import FlowReport.Proofs.Numerals
import FlowReport.Report.Pane

/-!
# The names of pages

A file name of a page ends with the number of the page and the ending of all pages, and both can be
read off. What is left is the function's name with the tag of the pane, and the overview has no
tag: the overview of a function can have the name of a pane of another function, and no other two
files can have one name.
-/

namespace FlowReport

/-- Where a mark is met last, a text can be cut in one way only. -/
theorem append_cons_inj_of_last {α : Type} {a : α} {x y s t : List α} (left : a ∉ s)
    (right : a ∉ t) : x ++ a :: s = y ++ a :: t ↔ x = y ∧ s = t := by
  constructor
  · intro h
    rcases List.append_eq_append_iff.1 h with ⟨r, rfl, rest⟩ | ⟨r, rfl, rest⟩
    · cases r with
      | nil => exact ⟨(List.append_nil _).symm, (List.cons.inj rest).2⟩
      | cons b r =>
        rw [List.cons_append, List.cons.injEq] at rest
        rw [rest.2] at left
        exact absurd (List.mem_append_right _ List.mem_cons_self) left
    · cases r with
      | nil => exact ⟨List.append_nil _, (List.cons.inj rest).2.symm⟩
      | cons b r =>
        rw [List.cons_append, List.cons.injEq] at rest
        rw [rest.2] at right
        exact absurd (List.mem_append_right _ List.mem_cons_self) right
  · rintro ⟨same, same'⟩
    rw [same, same']

namespace Pane

/-- What the name of a file says about the pane. -/
def tag : Pane → Text
  | overview => []
  | pane => '_' :: pane.word

theorem fileName_eq (function : Text) (pane : Pane) (page : Nat) :
    pane.fileName function page =
      function ++ pane.tag ++ '_' :: (Numeral.padded 4 page ++ ".html".toList) := by
  cases pane <;> simp [fileName, tag]

theorem word_no_mark (pane : Pane) : '_' ∉ pane.word := by
  cases pane <;> decide

/-- The number of a page is read off its name. -/
theorem fileName_eq_iff {f g : Text} {k l : Pane} {p q : Nat} :
    k.fileName f p = l.fileName g q ↔ f ++ k.tag = g ++ l.tag ∧ p = q := by
  have no_mark : ∀ n, '_' ∉ Numeral.padded 4 n ++ ".html".toList :=
    Numeral.not_mem_padded_append (by decide) (by decide) 4
  rw [fileName_eq, fileName_eq, append_cons_inj_of_last (no_mark p) (no_mark q),
    List.append_left_inj]
  refine and_congr_right fun _ => ⟨fun h => ?_, fun h => by rw [h]⟩
  rw [← Numeral.value_padded 4 p, h, Numeral.value_padded]

/-- The overview of a function named `f` has the name of the pane `l` of a function named `g`. -/
def Clash (f : Text) (k : Pane) (g : Text) (l : Pane) : Prop :=
  k = overview ∧ l ≠ overview ∧ f = g ++ l.tag

instance (f : Text) (k : Pane) (g : Text) (l : Pane) : Decidable (Clash f k g l) :=
  inferInstanceAs (Decidable (_ ∧ _ ∧ _))

theorem tag_of_ne {pane : Pane} (h : pane ≠ overview) : pane.tag = '_' :: pane.word := by
  cases pane <;> first | rfl | exact absurd rfl h

theorem word_injective {k l : Pane} (h : k.word = l.word) : k = l := by
  cases k <;> cases l <;> first | rfl | exact absurd h (by decide)

/-- A name and a tag give both back, unless one of the panes is an overview. -/
theorem append_tag_iff {f g : Text} {k l : Pane} :
    f ++ k.tag = g ++ l.tag ↔ (f = g ∧ k = l) ∨ Clash f k g l ∨ Clash g l f k := by
  by_cases hk : k = overview
  · by_cases hl : l = overview
    · simp [hk, hl, tag, Clash]
    · simp [hk, hl, tag, Clash, Ne.symm hl]
  · by_cases hl : l = overview
    · simp [hk, hl, tag, Clash, eq_comm]
    · rw [tag_of_ne hk, tag_of_ne hl, append_cons_inj_of_last (word_no_mark k) (word_no_mark l)]
      simp only [Clash, hk, hl, false_and, or_false]
      exact and_congr_right fun _ => ⟨word_injective, fun h => by rw [h]⟩

/-- Two files of pages have one name if they are the same file, or if one is the overview of a
function that is named like the other function with the tag of the other file's pane. -/
theorem fileName_same_iff {f g : Text} {k l : Pane} {p q : Nat} :
    k.fileName f p = l.fileName g q ↔
      ((f = g ∧ k = l) ∨ Clash f k g l ∨ Clash g l f k) ∧ p = q := by
  rw [fileName_eq_iff, append_tag_iff]

end Pane

end FlowReport
