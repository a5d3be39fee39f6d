import FlowReport.Assembly.Ident
import Mathlib.Data.List.DropRight

/-!
# Scanning

Laws of the small scanners that every reader is made of: what trimming leaves alone, where a run
of characters ends, and which characters can be confused with which.
-/

namespace FlowReport

namespace Text

/-- What holds of each character of a text is decided along the text. There are finitely many
characters, but too many to try each of them. -/
instance {P : Char → Prop} [DecidablePred P] (s : Text) : Decidable (∀ c ∈ s, P c) :=
  List.decidableBAll P s

/-- What is dropped from the end of a list stops at an item that stays. -/
theorem rdropWhile_append_cons {α : Type} {p : α → Bool} {a : α} (h : p a = false)
    (front l : List α) : (front ++ a :: l).rdropWhile p = front ++ a :: l.rdropWhile p := by
  rw [List.rdropWhile, List.rdropWhile, List.reverse_append, List.reverse_cons, List.append_assoc,
    List.dropWhile_append]
  cases l.reverse.dropWhile p <;> simp [h]

theorem dropBlank_cons {c : Char} (h : isBlank c = false) (s : Text) :
    dropBlank (c :: s) = c :: s := List.dropWhile_cons_of_neg (by simp [h])

/-- Blanks in front do not matter where blanks are skipped. -/
theorem dropBlank_append {front : Text} (blank : ∀ c ∈ front, isBlank c = true) (s : Text) :
    dropBlank (front ++ s) = dropBlank s := List.dropWhile_append_of_pos blank

theorem dropBlankEnd_append_cons {c : Char} (h : isBlank c = false) (front s : Text) :
    dropBlankEnd (front ++ c :: s) = front ++ c :: dropBlankEnd s :=
  rdropWhile_append_cons h front s

/-- Nor do blanks behind where they are skipped from the end. -/
theorem dropBlankEnd_append {back : Text} (blank : ∀ c ∈ back, isBlank c = true) (s : Text) :
    dropBlankEnd (s ++ back) = dropBlankEnd s := by
  rw [dropBlankEnd, List.reverse_append,
    List.dropWhile_append_of_pos fun c member => blank c (List.mem_reverse.1 member)]
  rfl

/-- The second text is the first one with blanks around it. -/
def Padded (s t : Text) : Prop :=
  ∃ left right, (∀ c ∈ left ++ right, isBlank c = true) ∧ t = left ++ (s ++ right)

theorem Padded.refl (s : Text) : Padded s s := ⟨[], [], by simp, by simp⟩

/-- Trimming takes the blanks around a text away. -/
theorem Padded.trim {s t : Text} (padded : Padded s t) : t.trim = s.trim := by
  obtain ⟨left, right, blank, rfl⟩ := padded
  obtain ⟨before, behind⟩ := List.forall_mem_append.1 blank
  rw [Text.trim, Text.trim, dropBlank_append before]
  cases rest : dropBlank s with
  | nil =>
    rw [dropBlank_append (List.dropWhile_eq_nil_iff.1 rest), dropBlank,
      List.dropWhile_eq_nil_iff.2 behind]
  | cons c r =>
    have kept : dropBlank (s ++ right) = (c :: r) ++ right := by
      rw [dropBlank, List.dropWhile_append, show s.dropWhile isBlank = c :: r from rest]
      rfl
    rw [kept, dropBlankEnd_append behind]

/-- Nor does it matter whether the blanks at the end were taken away before. -/
theorem trim_dropBlankEnd (s : Text) : s.dropBlankEnd.trim = s.trim := by
  have padded : Padded s.dropBlankEnd s :=
    ⟨[], s.rtakeWhile isBlank, fun _ member => List.mem_rtakeWhile_imp member,
      List.rdropWhile_append_rtakeWhile.symm⟩
  exact padded.trim.symm

/-- A text without blanks is trimmed. -/
theorem trim_of_solid {s : Text} (solid : ∀ c ∈ s, isBlank c = false) : s.trim = s := by
  have front : dropBlank s = s := List.dropWhile_eq_self_iff.2 fun nonempty => by
    simp [solid _ (List.getElem_mem nonempty)]
  rw [trim, front]
  refine List.rdropWhile_eq_self_iff.2 fun nonempty => ?_
  simp [solid _ (List.getLast_mem nonempty)]

theorem not_blank_of_dropBlank {s r : Text} {c : Char} (h : dropBlank s = c :: r) :
    isBlank c = false := by
  have := List.head?_dropWhile_not isBlank s
  rw [show s.dropWhile isBlank = c :: r from h] at this
  simpa using this

/-- Trimming keeps the first character that is no blank. -/
theorem head?_trim (s : Text) : s.trim.head? = (dropBlank s).head? := by
  unfold trim
  cases h : dropBlank s with
  | nil => rfl
  | cons c r =>
    have kept := dropBlankEnd_append_cons (not_blank_of_dropBlank h) [] r
    rw [List.nil_append, List.nil_append] at kept
    rw [kept, List.head?_cons, List.head?_cons]

theorem trim_eq_nil_iff {s : Text} : s.trim = [] ↔ dropBlank s = [] := by
  rw [← List.head?_eq_none_iff, head?_trim, List.head?_eq_none_iff]

theorem dropPrefix?_append (front rest : Text) : dropPrefix? front (front ++ rest) = some rest := by
  induction front with
  | nil => rfl
  | cons c front ih => rw [List.cons_append, dropPrefix?, if_pos rfl, ih]

/-- A prefix ends in front of a character that it does not hold. -/
theorem dropPrefix?_append_cons {part s : Text} {c : Char} (foreign : c ∉ part) (t : Text) :
    dropPrefix? part (s ++ c :: t) = (dropPrefix? part s).map (· ++ c :: t) := by
  induction part generalizing s with
  | nil => rfl
  | cons p part ih =>
    rw [List.mem_cons, not_or] at foreign
    cases s with
    | nil => exact if_neg (Ne.symm foreign.1)
    | cons d s =>
      rw [List.cons_append, dropPrefix?, dropPrefix?]
      split
      · exact ih foreign.2
      · rfl

/-- Skipping ends in front of a character that is no blank. -/
theorem dropBlank_append_cons {s : Text} {c : Char} (nonblank : isBlank c = false) (t : Text) :
    dropBlank (s ++ c :: t) = dropBlank s ++ c :: t := by
  rw [dropBlank, List.dropWhile_append]
  split
  · rename_i all
    rw [List.dropWhile_cons_of_neg (by simp [nonblank]), dropBlank,
      List.isEmpty_iff.1 all, List.nil_append]
  · rfl

theorem cutAt?_append {mark : Char} {s : Text} (unbroken : mark ∉ s) (rest : Text) :
    cutAt? mark (s ++ mark :: rest) = some (s, rest) := by
  induction s with
  | nil => rw [List.nil_append, cutAt?, if_pos rfl]
  | cons c s ih =>
    rw [List.mem_cons, not_or] at unbroken
    rw [List.cons_append, cutAt?, if_neg (Ne.symm unbroken.1), ih unbroken.2]
    rfl

/-- A run of characters ends at one of another kind. -/
theorem takeWhile_append_cons {p : Char → Bool} {w : Text} {c : Char} (run : ∀ a ∈ w, p a = true)
    (ends : p c = false) (s : Text) : (w ++ c :: s).takeWhile p = w := by
  rw [List.takeWhile_append_of_pos run, List.takeWhile_cons_of_neg (by simp [ends]),
    List.append_nil]

theorem dropWhile_append_cons {p : Char → Bool} {w : Text} {c : Char} (run : ∀ a ∈ w, p a = true)
    (ends : p c = false) (s : Text) : (w ++ c :: s).dropWhile p = c :: s := by
  rw [List.dropWhile_append_of_pos run, List.dropWhile_cons_of_neg (by simp [ends])]

end Text

namespace Assembly

theorem ascii_of_isBare {c : Char} (h : isBare c = true) : 36 ≤ c.toNat ∧ c.toNat < 128 := by
  simp only [isBare, Bool.or_eq_true, decide_eq_true_eq, beq_iff_eq] at h
  have range : ∀ {low high : Char}, low ≤ c ∧ c ≤ high →
      low.toNat ≤ c.toNat ∧ c.toNat ≤ high.toNat := fun h => h
  rcases h with (((((h | h) | h) | rfl) | rfl) | rfl) | rfl
  iterate 3
    · have := range h
      simp only [Char.reduceToNat] at this
      omega
  all_goals decide

/-- An identifier starts and ends where blanks do. -/
theorem not_blank_of_isBare {c : Char} (h : isBare c = true) : isBlank c = false := by
  obtain ⟨low, high⟩ := ascii_of_isBare h
  simp only [isBlank, high, if_true, Bool.or_eq_false_iff, Bool.and_eq_false_iff,
    decide_eq_false_iff_not]
  omega

theorem isBare_of_isDigit {c : Char} (h : c.isDigit) : isBare c = true := by
  rw [Char.isDigit, Bool.and_eq_true, decide_eq_true_eq, decide_eq_true_eq] at h
  have : '0' ≤ c ∧ c ≤ '9' := h
  simp [isBare, this]

/-- Of the ASCII characters only the ASCII digits are digits. -/
theorem isDigit_of_ascii {c : Char} (ascii : c.toNat < 0x80) (digit : isDigitLike c = true) :
    c.isDigit := by
  have wide : ¬ 0x80 ≤ c.toNat := by omega
  simp only [isDigitLike, wide, decide_false, Bool.false_and, Bool.or_false, isDecimal, decimal?,
    ascii, if_true] at digit
  split at digit
  · rename_i range
    rw [Bool.and_eq_true, decide_eq_true_eq, decide_eq_true_eq] at range
    rw [Char.isDigit, Bool.and_eq_true, decide_eq_true_eq, decide_eq_true_eq]
    exact range
  · cases digit

theorem isDigit_of_isBare {c : Char} (h : isBare c = true) (digit : isDigitLike c = true) :
    c.isDigit := isDigit_of_ascii (ascii_of_isBare h).2 digit

/-- The longest identifier in front of a character that no bare identifier has. -/
theorem Ident.read?_bare {w : Text} {c : Char} (nonempty : w ≠ []) (bare : ∀ a ∈ w, isBare a = true)
    (ends : isBare c = false) (s : Text) : read? (w ++ c :: s) = some (.bare w, c :: s) := by
  obtain ⟨a, w, rfl⟩ := List.exists_cons_of_ne_nil nonempty
  have quote : a ≠ '"' := by
    rintro rfl
    exact absurd (bare _ List.mem_cons_self) (by decide)
  unfold read?
  split
  · rename_i h
    rw [List.cons_append, List.cons.injEq] at h
    exact absurd h.1 quote
  · rw [Text.takeWhile_append_cons bare ends, Text.dropWhile_append_cons bare ends]

end Assembly

end FlowReport
