import FlowReport.Page.Markup
import FlowReport.Page.Source
import FlowReport.World

/-!
# Templates

A template is a text in which `$name` and `$` with the name in braces stand for fields and `$$`
for a dollar sign; any other dollar sign is a mistake. Filling a template in is one pass from
left to right, so what a field brings in is never looked at again, and the first mistake or
missing field decides the error.
-/

namespace FlowReport.Template

/-- A piece of a template. -/
inductive Piece where
  | char (c : Char)
  | dollar
  | field (braced : Bool) (name : Text)
  | mistake
  deriving DecidableEq, Repr

namespace Piece

/-- How a piece is written. -/
def source : Piece → Text
  | char c => [c]
  | dollar => ['$', '$']
  | field false name => '$' :: name
  | field true name => '$' :: '{' :: name ++ ['}']
  | mistake => ['$']

/-- The first character of a field's name. -/
def isNameStart (c : Char) : Bool := ('a' ≤ c ∧ c ≤ 'z') || ('A' ≤ c ∧ c ≤ 'Z') || c == '_'

/-- A character of a field's name. -/
def isNameChar (c : Char) : Bool := isNameStart c || ('0' ≤ c ∧ c ≤ '9')

/-- The field name at the start of a text, empty if there is none. -/
def nameAt : Text → Text
  | [] => []
  | c :: s => if isNameStart c then c :: s.takeWhile isNameChar else []

/-- The piece that begins with a dollar sign, before the text `s`. -/
def afterDollar (s : Text) : Piece :=
  match s with
  | '$' :: _ => .dollar
  | '{' :: r =>
    let name := nameAt r
    if name ≠ [] ∧ (r.drop name.length).head? = some '}' then .field true name else .mistake
  | _ =>
    let name := nameAt s
    if name ≠ [] then .field false name else .mistake

/-- The piece at the head of a text. -/
def next (c : Char) (s : Text) : Piece := if c = '$' then afterDollar s else .char c

/-- The pieces of a text; `skip` characters belong to a piece already read. -/
def ofTextFrom : (skip : Nat) → Text → List Piece
  | _, [] => []
  | skip + 1, _ :: s => ofTextFrom skip s
  | 0, c :: s => next c s :: ofTextFrom ((next c s).source.length - 1) s

/-- The pieces of a text. -/
def ofText (s : Text) : List Piece := ofTextFrom 0 s

theorem nameAt_prefix_self (s : Text) : nameAt s <+: s := by
  cases s with
  | nil => exact List.prefix_rfl
  | cons c s =>
    by_cases h : isNameStart c
    · simpa [nameAt, h] using List.takeWhile_prefix isNameChar
    · simp [nameAt, h]

theorem append_drop_nameAt (s : Text) : nameAt s ++ s.drop (nameAt s).length = s :=
  List.prefix_iff_eq_append.1 (nameAt_prefix_self s)

theorem source_afterDollar_prefix_cons (s : Text) : (afterDollar s).source <+: '$' :: s := by
  unfold afterDollar
  split
  · simp [source]
  · rename_i r
    extract_lets name
    split
    · rename_i h
      obtain ⟨tail, htail⟩ := List.head?_eq_some_iff.1 h.2
      refine ⟨tail, ?_⟩
      have hr := append_drop_nameAt r
      rw [htail] at hr
      simpa [source, name] using hr
    · simp [source]
  · extract_lets name
    split
    · exact List.cons_prefix_cons.2 ⟨rfl, nameAt_prefix_self s⟩
    · simp [source]

theorem source_next_prefix_cons (c : Char) (s : Text) : (next c s).source <+: c :: s := by
  unfold next
  split
  · rename_i h
    subst h
    exact source_afterDollar_prefix_cons s
  · simp [source]

theorem source_ne_nil (piece : Piece) : piece.source ≠ [] := by
  cases piece with
  | field braced name => cases braced <;> simp [source]
  | _ => simp [source]

theorem flatMap_source_ofTextFrom (skip : Nat) (s : Text) :
    (ofTextFrom skip s).flatMap source = s.drop skip := by
  fun_induction ofTextFrom skip s with
  | case1 skip => simp
  | case2 skip c s ih => simpa using ih
  | case3 c s ih =>
    obtain ⟨rest, hrest⟩ := source_next_prefix_cons c s
    obtain ⟨d, tail, hsource⟩ := List.exists_cons_of_ne_nil (source_ne_nil (next c s))
    rw [hsource] at ih hrest
    simp only [List.cons_append, List.cons.injEq] at hrest
    obtain ⟨rfl, rfl⟩ := hrest
    simp only [List.length_cons, Nat.add_sub_cancel, List.drop_left] at ih
    simp [hsource, ih]

/-- Written one after the other, the pieces of a text give the text back. -/
theorem flatMap_source_ofText (s : Text) : (ofText s).flatMap source = s :=
  flatMap_source_ofTextFrom 0 s

end Piece

/-- The line and the column at which a text ends, both at least one. -/
def endPlace (s : Text) : Nat × Nat :=
  match s.fullLines.getLast? with
  | none => (1, 1)
  | some line => (s.fullLines.length, line.length)

/-- Why a template was not filled in. A mistaken dollar sign is told by what stands behind it. -/
inductive Mistake where
  | missingField (key : Text)
  | badPlaceholder (behind : List Piece)
  deriving DecidableEq, Repr

/-- The text that stands for a piece, before the pieces `behind`. -/
def pieceText (fields : Table WideText) (behind : List Piece) : Piece → Except Mistake WideText
  | .char c => .ok [.char c]
  | .dollar => .ok [.char '$']
  | .field _ name =>
    match fields.get? name with
    | some value => .ok value
    | none => .error (.missingField name)
  | .mistake => .error (.badPlaceholder behind)

/-- Fills in pieces from left to right. -/
def fillPieces (fields : Table WideText) : List Piece → Except Mistake WideText
  | [] => .ok []
  | piece :: behind => do
    let text ← pieceText fields behind piece
    return text ++ (← fillPieces fields behind)

/-- Fills in a template. -/
def fill (fields : Table WideText) (template : Text) : Except Mistake WideText :=
  fillPieces fields (Piece.ofText template)

/-- The line and the column of the dollar sign before the last pieces of a template. -/
def placeBefore (template : Text) (behind : List Piece) : Nat × Nat :=
  let pieces := Piece.ofText template
  endPlace ((pieces.take (pieces.length - behind.length)).flatMap Piece.source)

/-- The ending of the names of fields that hold markup. -/
def markupEnding : Text := "_html"

/-- The text of a field: null is empty, and what is not markup is made safe. -/
def fieldText (key : Text) (value : Json) : WideText :=
  let s := if value matches .null then [] else value.plain
  if markupEnding.isSuffixOf key then s else Markup.safeWide s

/-- The texts of fields. -/
def fieldTexts (fields : Table Json) : Table WideText :=
  fields.map fun (key, value) => (key, fieldText key value)

end Template

/-- The templates of a report, by their names. -/
abbrev Templates := Table Text

namespace Templates

/-- The names of the templates. -/
def names : List Text := ["overview", "c", "llvm", "cfa", "go", "index"]

/-- The templates that come with the library. -/
def shipped : Templates := [
  ("overview", Source.overview), ("c", Source.code), ("llvm", Source.assembly),
  ("cfa", Source.graph), ("go", Source.decompiled), ("index", Source.index)]

/-- Reads one template. -/
def loadOne (directory : Path) (name : Text) : Action (Text × Text) := do
  let path := directory.child (name ++ ".tmpl")
  tryCatch (do return (name, ← Action.readText path)) fun e =>
    match e with
    | .file fault p => throw (.template (.unreadable path.text fault p))
    | e => throw e

/-- Reads the templates of a directory. -/
def load (directory : Path) : Action Templates := names.mapM (loadOne directory)

/-- The page that a template makes of fields. -/
def render (templates : Templates) (name : Text) (fields : Table Json) : Except Error WideText :=
  match templates.get? name with
  | none => .error (.template (.unknown name))
  | some template =>
    match Template.fill (Template.fieldTexts fields) template with
    | .ok page => .ok page
    | .error (.missingField key) => .error (.template (.missingField name key))
    | .error (.badPlaceholder behind) =>
      let (line, column) := Template.placeBefore template behind
      .error (.template (.badPlaceholder name line column))

end Templates

end FlowReport
