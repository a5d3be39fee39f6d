import FlowReport.Page.Template
import FlowReport.Proofs.Tables
import FlowReport.Proofs.Tags
import Mathlib.Data.List.Forall2

/-!
# Templates filled in

What a template makes of fields is made of what its pieces stand for, one after the other, so a
template is filled in line by line. A page that was written is a text, and then what each field
brought in is one too.
-/

namespace FlowReport

theorem Text.wide_eq_append_iff {s : Text} {a b : WideText} :
    s.wide = a ++ b ↔ ∃ t u : Text, s = t ++ u ∧ a = t.wide ∧ b = u.wide := by
  rw [Text.wide, List.map_eq_append_iff]
  constructor
  · rintro ⟨t, u, rfl, rfl, rfl⟩
    exact ⟨t, u, rfl, rfl, rfl⟩
  · rintro ⟨t, u, rfl, rfl, rfl⟩
    exact ⟨t, u, rfl, rfl, rfl⟩

namespace Template

variable {fields : Table WideText} {pieces behind : List Piece} {s : Text}

/-- The text that the pieces make of the fields. -/
def Filled (fields : Table WideText) (pieces : List Piece) (s : Text) : Prop :=
  fillPieces fields pieces = .ok s.wide

/-- The text that one piece stands for. -/
def Stands (fields : Table WideText) (s : Text) : Piece → Prop
  | .char c => s = [c]
  | .dollar => s = ['$']
  | .field _ name => fields.get? name = some s.wide
  | .mistake => False

theorem filled_nil : Filled fields [] s ↔ s = [] := by
  simp [Filled, fillPieces, Text.wide]

theorem pieceText_eq_ok_iff (behind : List Piece) {piece : Piece} :
    pieceText fields behind piece = .ok s.wide ↔ Stands fields s piece := by
  cases piece with
  | char c => simp [pieceText, Stands, Text.wide, List.map_eq_singleton_iff, eq_comm]
  | dollar => simp [pieceText, Stands, Text.wide, List.map_eq_singleton_iff, eq_comm]
  | field braced name =>
    rw [pieceText, Stands]
    cases fields.get? name <;> simp
  | mistake => simp [pieceText, Stands]

theorem filled_cons {piece : Piece} : Filled fields (piece :: behind) s ↔
    ∃ t u, s = t ++ u ∧ Stands fields t piece ∧ Filled fields behind u := by
  simp only [Filled, ← pieceText_eq_ok_iff behind]
  rw [fillPieces]
  cases pieceText fields behind piece with
  | error e => simp [bind, Except.bind]
  | ok a =>
    cases fillPieces fields behind with
    | error e => simp [bind, Except.bind]
    | ok b =>
      show Except.ok (a ++ b) = Except.ok s.wide ↔ _
      simp only [Except.ok.injEq]
      rw [eq_comm, Text.wide_eq_append_iff]

theorem filled_append {front : List Piece} : Filled fields (front ++ behind) s ↔
    ∃ t u, s = t ++ u ∧ Filled fields front t ∧ Filled fields behind u := by
  induction front generalizing s with
  | nil => simp [filled_nil]
  | cons piece front ih =>
    simp only [List.cons_append, filled_cons, ih]
    constructor
    · rintro ⟨t, u, rfl, stands, v, x, rfl, front, behind⟩
      exact ⟨t ++ v, x, (List.append_assoc _ _ _).symm, ⟨t, v, rfl, stands, front⟩, behind⟩
    · rintro ⟨-, x, rfl, ⟨t, v, rfl, stands, front⟩, behind⟩
      exact ⟨t, v ++ x, List.append_assoc _ _ _, stands, v, x, rfl, front, behind⟩

/-- What has no fields stays as it is. -/
theorem filled_literal {literal : Text} : Filled fields (literal.map .char) s ↔ s = literal := by
  induction literal generalizing s with
  | nil => exact filled_nil
  | cons c literal ih => simp [filled_cons, Stands, ih]

/-- What has no dollar sign has no fields. -/
theorem Piece.ofText_plain (plain : '$' ∉ s) : Piece.ofText s = s.map .char := by
  unfold Piece.ofText
  induction s with
  | nil => rfl
  | cons c s ih =>
    rw [List.mem_cons, not_or] at plain
    rw [Piece.ofTextFrom, Piece.next, if_neg (Ne.symm plain.1)]
    exact congrArg _ (ih plain.2)

/-- The first field, behind a text without any. -/
theorem filled_field {literal name : Text} {braced : Bool} :
    Filled fields (literal.map .char ++ .field braced name :: behind) s ↔ ∃ value t,
      s = literal ++ (value ++ t) ∧ fields.get? name = some value.wide ∧ Filled fields behind t := by
  simp only [filled_append, filled_literal, filled_cons, Stands]
  constructor
  · rintro ⟨_, _, rfl, rfl, value, t, rfl, stands, rest⟩
    exact ⟨value, t, rfl, stands, rest⟩
  · rintro ⟨value, t, rfl, stands, rest⟩
    exact ⟨_, _, rfl, rfl, value, t, rfl, stands, rest⟩

/-- A template that is cut into parts is filled in part by part. -/
theorem filled_flatMap {parts : List Text} :
    Filled fields (parts.flatMap Piece.ofText) s ↔ ∃ texts, s = texts.flatten ∧
      List.Forall₂ (fun part text => Filled fields (Piece.ofText part) text) parts texts := by
  induction parts generalizing s with
  | nil => simp [filled_nil]
  | cons part parts ih =>
    rw [List.flatMap_cons, filled_append]
    constructor
    · rintro ⟨t, u, rfl, head, tail⟩
      obtain ⟨texts, rfl, rest⟩ := ih.1 tail
      exact ⟨t :: texts, rfl, .cons head rest⟩
    · rintro ⟨_, rfl, _ | ⟨head, tail⟩⟩
      exact ⟨_, _, rfl, head, ih.2 ⟨_, rfl, tail⟩⟩

/-- A field stands for its value: markup as it is, anything else made safe. -/
theorem get?_fieldTexts (fields : Table Json) (key : Text) :
    (fieldTexts fields).get? key = (fields.get? key).map (fieldText key) := by
  induction fields with
  | nil => rfl
  | cons e fields ih =>
    simp only [fieldTexts, List.map_cons, Table.get?] at ih ⊢
    split
    · rename_i same
      rw [← same]
      rfl
    · exact ih

/-- The field holds markup. -/
def isMarkup (key : Text) : Bool := markupEnding.isSuffixOf key

theorem fieldText_ofText (key s : Text) : fieldText key (.ofText s) =
    (if isMarkup key then s else Markup.safe s).wide := by
  show (if isMarkup key then s.wide else Markup.safeWide s.wide) = _
  rw [Markup.safeWide_wide]
  split <;> rfl

theorem field_ofText {fields : Table Json} {key text : Text}
    (given : fields.get? key = some (.ofText text))
    (stands : (fieldTexts fields).get? key = some s.wide) :
    s = if isMarkup key then text else Markup.safe text := by
  rw [get?_fieldTexts, given, Option.map_some, fieldText_ofText, Option.some_inj] at stands
  rw [← Option.some_inj, ← WideText.text?_wide s, ← stands, WideText.text?_wide]

/-- What is made safe brings no marks with it. -/
theorem unmarked_of_safeWide {w : WideText} (same : Markup.safeWide w = s.wide) :
    ∀ c ∈ s, Markup.isMark c = false := by
  intro c member
  have inside : CodePoint.char c ∈ Markup.safeWide w := by
    rw [same]
    exact List.mem_map_of_mem member
  obtain ⟨p, -, here⟩ := List.mem_flatMap.1 inside
  cases p with
  | char d =>
    obtain ⟨_, here, same⟩ := List.mem_map.1 here
    cases same
    exact Markup.not_mark_of_mem_safe (s := [d]) c (by simpa [Markup.safe] using here)
  | _ => simp [Markup.safePoint] at here

/-- A field that does not hold markup brings no marks with it. -/
theorem unmarked_field {fields : Table Json} {key : Text} (quiet : isMarkup key = false)
    (stands : (fieldTexts fields).get? key = some s.wide) : ∀ c ∈ s, Markup.isMark c = false := by
  rw [get?_fieldTexts, Option.map_eq_some_iff] at stands
  obtain ⟨value, -, same⟩ := stands
  have same : (if isMarkup key then _ else Markup.safeWide _) = s.wide := same
  rw [quiet] at same
  exact unmarked_of_safeWide same

end Template

end FlowReport
