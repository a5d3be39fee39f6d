import FlowReport.Page.Markup
import FlowReport.Proofs.PathNames
import FlowReport.Proofs.Scan
import Mathlib.Data.List.Forall2

/-!
# What a page refers to

A reader of a page sees its tags: what stands between the brackets, and the text up to the next tag.
Some of them refer to other files: the frames, the links and the images. A name that was made safe
comes out of an attribute as it went in, and it brings no tag of its own, so what a page refers to is
read off the parts that it is put together from.
-/

namespace FlowReport

namespace Text

/-- A mark cuts a text in two, whatever stands before it. -/
theorem split_at_mark (mark : Char) (s rest : Text) :
    split mark (s ++ mark :: rest) = split mark s ++ split mark rest := by
  induction s with
  | nil =>
    rw [List.nil_append, show split mark (mark :: rest) = [] :: split mark rest by
      rw [split, if_pos rfl]]
    rfl
  | cons c s ih =>
    rw [List.cons_append, split, split, ih]
    split
    · rfl
    · obtain ⟨piece, pieces, same⟩ := List.exists_cons_of_ne_nil (split_ne_nil mark s)
      rw [same]
      rfl

/-- The first mark of a text. -/
theorem exists_first {mark : Char} {s : Text} (there : mark ∈ s) :
    ∃ front rest, s = front ++ mark :: rest ∧ mark ∉ front := by
  induction s with
  | nil => cases there
  | cons c s ih =>
    by_cases same : mark = c
    · exact ⟨[], s, by rw [same]; rfl, List.not_mem_nil⟩
    · obtain ⟨front, rest, rfl, other⟩ := ih ((List.mem_cons.1 there).resolve_left same)
      refine ⟨c :: front, rest, rfl, ?_⟩
      rw [List.mem_cons, not_or]
      exact ⟨same, other⟩

end Text

namespace Markup

/-! ## Safe texts -/

/-- The references that stand for single characters in pages. -/
def characters : List (Text × Char) :=
  [("&amp;", '&'), ("&lt;", '<'), ("&gt;", '>'), ("&quot;", '"'), ("&#x27;", '\'')]

/-- The character whose reference begins the text, and the length of the reference. -/
def character? (s : Text) : Option (Char × Nat) :=
  characters.findSome? fun (name, c) => if name.isPrefixOf s then some (c, name.length) else none

/-- The text with characters for their references; `skip` characters belong to one already read. -/
def unescapeFrom : (skip : Nat) → Text → Text
  | _, [] => []
  | skip + 1, _ :: s => unescapeFrom skip s
  | 0, c :: s =>
    match character? (c :: s) with
    | some (d, size) => d :: unescapeFrom (size - 1) s
    | none => c :: unescapeFrom 0 s

/-- The text with characters for their references. -/
def unescape (s : Text) : Text := unescapeFrom 0 s

/-- The characters that a page is built with: the brackets of tags and the quotes of attributes. -/
def isMark (c : Char) : Bool := c == '<' || c == '>' || c == '"' || c == '\''

/-- A character is written as its reference, or as itself if it is no mark. -/
theorem safeChar_cases (c : Char) :
    (safeChar c, c) ∈ characters ∨ safeChar c = [c] ∧ c ≠ '&' ∧ isMark c = false := by
  unfold safeChar textChar
  split_ifs with double single ampersand less greater
  · rw [double]; exact .inl (by decide)
  · rw [single]; exact .inl (by decide)
  · rw [ampersand]; exact .inl (by decide)
  · rw [less]; exact .inl (by decide)
  · rw [greater]; exact .inl (by decide)
  · exact .inr ⟨rfl, ampersand, by simp [isMark, less, greater, double, single]⟩

/-- A text that was made safe is read as it was. -/
theorem unescape_safe (s : Text) : unescape (safe s) = s := by
  unfold unescape safe
  induction s with
  | nil => rfl
  | cons c s ih =>
    rw [List.flatMap_cons]
    rcases safeChar_cases c with listed | ⟨same, other, -⟩
    · simp only [characters, List.mem_cons, Prod.mk.injEq, List.not_mem_nil, or_false] at listed
      rcases listed with ⟨name, rfl⟩ | ⟨name, rfl⟩ | ⟨name, rfl⟩ | ⟨name, rfl⟩ | ⟨name, rfl⟩ <;>
        rw [name] <;> exact congrArg _ ih
    · have none : character? (c :: s.flatMap safeChar) = none := by
        simp [character?, characters, Ne.symm other]
      rw [same, List.singleton_append, unescapeFrom, none, ih]

/-- A text that was made safe holds no marks. -/
theorem not_mark_of_mem_safe {s : Text} : ∀ c ∈ safe s, isMark c = false := by
  have plain : characters.all (fun entry => entry.1.all fun c => !isMark c) = true := by decide
  intro c member
  obtain ⟨d, -, inside⟩ := List.mem_flatMap.1 member
  rcases safeChar_cases d with listed | ⟨same, -, other⟩
  · simpa using List.all_eq_true.1 (List.all_eq_true.1 plain _ listed) c inside
  · rw [same, List.mem_singleton] at inside
    rw [inside, other]

theorem not_mem_safe (mark : Char) (h : isMark mark = true) (s : Text) : mark ∉ safe s := by
  intro member
  rw [not_mark_of_mem_safe mark member] at h
  cases h

/-! ## Tags -/

/-- A tag: what stands between its brackets, and the text from there to the next tag. -/
structure Tag where
  inside : Text
  behind : Text
  deriving DecidableEq, Repr

/-- The tag that begins with a piece between brackets that open. -/
def Tag.ofPiece (piece : Text) : Tag :=
  match Text.cutAt? '>' piece with
  | some (inside, behind) => ⟨inside, behind⟩
  | none => ⟨piece, []⟩

/-- The tags of a page, in order. -/
def tags (page : Text) : List Tag := ((Text.split '<' page).drop 1).map Tag.ofPiece

/-- What a tag refers to, in the attribute that the kind of the tag has for it: a frame that shows a
file, a link with its label, or an image. Of the pages of a function the current one has a label
without a link. -/
inductive Reference where
  | frame (target : Option Text)
  | link (target : Option Text) (label : Text)
  | image (target : Option Text)
  | current (label : Text)
  deriving DecidableEq, Repr

namespace Tag

/-- The name of a tag, empty for one that ends an element. -/
def name (t : Tag) : Text := t.inside.takeWhile Char.isAlphanum

/-- The value of an attribute. -/
def attribute? (key : Text) (t : Tag) : Option Text :=
  let start : Text := ' ' :: key ++ "=\""
  (Text.cutBefore? start t.inside).bind fun (_, found) =>
    (Text.cutAt? '"' (found.drop start.length)).map fun (value, _) => unescape value

/-- What the tag refers to, if it is one of those that do. -/
def reference? (t : Tag) : Option Reference :=
  if t.name = "iframe".toList then some (.frame (t.attribute? "src"))
  else if t.name = "a".toList then some (.link (t.attribute? "href") t.behind)
  else if t.name = "img".toList then some (.image (t.attribute? "src"))
  else if t.name = "span".toList ∧ t.attribute? "class" = some "current".toList then
    some (.current t.behind)
  else none

end Tag

/-- What a page refers to, in order. -/
def references (page : Text) : List Reference := (tags page).filterMap Tag.reference?

/-! ## Pages that are put together -/

theorem references_plain {s : Text} (plain : '<' ∉ s) : references s = [] := by
  have one := Text.split_append plain []
  rw [List.nil_append] at one
  rw [references, tags, one]
  rfl

theorem references_open (s rest : Text) :
    references (s ++ '<' :: rest) = references s ++ references ('<' :: rest) := by
  have drop : (Text.split '<' s ++ Text.split '<' rest).drop 1 =
      (Text.split '<' s).drop 1 ++ Text.split '<' rest := by
    obtain ⟨piece, pieces, same⟩ := List.exists_cons_of_ne_nil (Text.split_ne_nil '<' s)
    rw [same]
    rfl
  have alone : (Text.split '<' ('<' :: rest)).drop 1 = Text.split '<' rest := by
    rw [Text.split, if_pos rfl]
    rfl
  rw [references, references, references, tags, tags, tags, Text.split_at_mark, drop, alone,
    List.map_append, List.filterMap_append]

/-- A tag, with the text behind it. -/
theorem references_tag {piece : Text} (plain : '<' ∉ piece) :
    references ('<' :: piece) = (Tag.ofPiece piece).reference?.toList := by
  have one := Text.split_append plain []
  have alone : (Text.split '<' ('<' :: piece)).drop 1 = [piece] := by
    rw [Text.split, if_pos rfl]
    exact one
  rw [references, tags, alone, List.map_singleton]
  cases found : (Tag.ofPiece piece).reference? <;> simp [found]

/-- Text that comes behind the part of a page does not change what the part refers to. -/
def Closed (s : Text) : Prop := ∀ t, '<' ∉ t → references (s ++ t) = references s

theorem closed_plain {s : Text} (plain : '<' ∉ s) : Closed s := by
  intro t other
  rw [references_plain plain, references_plain]
  rw [List.mem_append, not_or]
  exact ⟨plain, other⟩

/-- Behind a part that is closed the page goes on with what comes next. -/
theorem Closed.references_append {s : Text} (closed : Closed s) (t : Text) :
    references (s ++ t) = references s ++ references t := by
  by_cases more : '<' ∈ t
  · obtain ⟨front, rest, rfl, plain⟩ := Text.exists_first more
    rw [← List.append_assoc, references_open, closed front plain, references_open front,
      references_plain plain, List.nil_append]
  · rw [closed t more, references_plain more, List.append_nil]

theorem Closed.append {s t : Text} (first : Closed s) (second : Closed t) : Closed (s ++ t) := by
  intro u plain
  rw [List.append_assoc, first.references_append, second u plain, first.references_append]

/-- The text behind a tag does not matter unless it is a label. -/
theorem Tag.reference?_behind {t : Tag} (link : t.name ≠ "a".toList) (span : t.name ≠ "span".toList)
    (behind : Text) : Tag.reference? ⟨t.inside, behind⟩ = t.reference? := by
  have name : Tag.name ⟨t.inside, behind⟩ = t.name := rfl
  simp only [reference?, name, link, span, if_false, false_and]
  rfl

/-- What is no reference is none whatever the label. -/
theorem Tag.reference?_label {inside label : Text} (h : Tag.reference? ⟨inside, label⟩ = none)
    (other : Text) : Tag.reference? ⟨inside, other⟩ = none := by
  have name : Tag.name ⟨inside, other⟩ = Tag.name ⟨inside, label⟩ := rfl
  have value : ∀ key, Tag.attribute? key ⟨inside, other⟩ = Tag.attribute? key ⟨inside, label⟩ :=
    fun _ => rfl
  simp only [reference?, name, value] at h ⊢
  split_ifs at h ⊢
  rfl

theorem Tag.ofPiece_append {piece : Text} (ended : '>' ∈ piece) (t : Text) :
    ofPiece (piece ++ t) = ⟨(ofPiece piece).inside, (ofPiece piece).behind ++ t⟩ := by
  obtain ⟨inside, behind, rfl, plain⟩ := Text.exists_first ended
  rw [ofPiece, ofPiece, List.append_assoc, List.cons_append, Text.cutAt?_append plain,
    Text.cutAt?_append plain]

/-- A part that ends behind a tag without a label is closed. -/
theorem closed_tag {piece : Text} (plain : '<' ∉ piece) (ended : '>' ∈ piece)
    (link : (Tag.ofPiece piece).name ≠ "a".toList) (span : (Tag.ofPiece piece).name ≠ "span".toList)
    (s : Text) : Closed (s ++ '<' :: piece) := by
  intro t other
  have both : '<' ∉ piece ++ t := by
    rw [List.mem_append, not_or]
    exact ⟨plain, other⟩
  rw [List.append_assoc, List.cons_append, references_open, references_open, references_tag both,
    references_tag plain, Tag.ofPiece_append ended, Tag.reference?_behind link span]

/-- The last tag of the text, if there is one, has no label, so that the text is closed. -/
def closes (s : Text) : Bool :=
  match (Text.split '<' s).drop 1 |>.getLast? with
  | none => true
  | some piece =>
    List.contains piece '>' && !(["a".toList, "span".toList].contains (Tag.ofPiece piece).name)

theorem closed_of_closes {s : Text} (h : closes s = true) : Closed s := by
  by_cases there : '<' ∈ s.reverse
  · obtain ⟨piece, front, same, plain⟩ := Text.exists_first there
    obtain rfl : s = front.reverse ++ '<' :: piece.reverse := by
      rw [← List.reverse_reverse s, same]
      simp
    have plain : '<' ∉ piece.reverse := mt List.mem_reverse.1 plain
    have one : Text.split '<' piece.reverse = [piece.reverse] := Text.split_append plain []
    obtain ⟨first, more, pieces⟩ := List.exists_cons_of_ne_nil
      (Text.split_ne_nil '<' front.reverse)
    have last : ((Text.split '<' (front.reverse ++ '<' :: piece.reverse)).drop 1).getLast? =
        some piece.reverse := by
      rw [Text.split_at_mark, one, pieces]
      simp
    simp only [closes, last, Bool.and_eq_true, Bool.not_eq_true', List.contains_eq_mem,
      decide_eq_true_eq, decide_eq_false_iff_not, List.mem_cons, List.not_mem_nil, or_false,
      not_or] at h
    exact closed_tag plain h.1 h.2.1 h.2.2 _
  · exact closed_plain (mt List.mem_reverse.2 there)

/-- What comes before the last tag does not matter. -/
theorem Closed.behind {rest : Text} (closed : Closed ('<' :: rest)) (s : Text) :
    Closed (s ++ '<' :: rest) := by
  intro t plain
  rw [List.append_assoc, List.cons_append, references_open, references_open, ← List.cons_append,
    closed t plain]

/-- An element, with a text between its tags. -/
theorem references_element {inside label : Text} (tag : '<' ∉ inside ∧ '>' ∉ inside)
    (text : '<' ∉ label) (rest : Text) :
    references ('<' :: (inside ++ '>' :: (label ++ '<' :: rest))) =
      (Tag.reference? ⟨inside, label⟩).toList ++ references ('<' :: rest) := by
  have piece : '<' ∉ inside ++ '>' :: label := by
    rw [List.mem_append, List.mem_cons, not_or, not_or]
    exact ⟨tag.1, by decide, text⟩
  have cut : Tag.ofPiece (inside ++ '>' :: label) = ⟨inside, label⟩ := by
    rw [Tag.ofPiece, Text.cutAt?_append tag.2]
  have shape : inside ++ '>' :: (label ++ '<' :: rest) = (inside ++ '>' :: label) ++ '<' :: rest := by
    simp
  rw [shape, ← List.cons_append, references_open, references_tag piece, cut]

/-- The value of an attribute is read as it was before it was made safe. -/
theorem Tag.attribute?_safe {t : Tag} {key value : Text} (front rest : Text)
    (found : Text.cutBefore? (' ' :: key ++ "=\"".toList) t.inside =
      some (front, ' ' :: key ++ "=\"".toList ++ (safe value ++ '"' :: rest))) :
    t.attribute? key = some value := by
  simp only [attribute?, found, Option.bind_some, List.drop_left,
    Text.cutAt?_append (not_mem_safe '"' rfl value), Option.map_some, unescape_safe]

/-- A part of a page and what it refers to, whatever comes behind it. -/
structure Refers (s : Text) (found : List Reference) : Prop where
  closed : Closed s
  found : references s = found

theorem refers_plain {s : Text} (plain : '<' ∉ s) : Refers s [] :=
  ⟨closed_plain plain, references_plain plain⟩

/-- A part whose tags are all known. -/
theorem refers_literal {s : Text} (h : closes s = true ∧ references s = []) : Refers s [] :=
  ⟨closed_of_closes h.1, h.2⟩

theorem Refers.append {s t : Text} {found more : List Reference} (first : Refers s found)
    (second : Refers t more) : Refers (s ++ t) (found ++ more) where
  closed := first.closed.append second.closed
  found := by rw [first.closed.references_append, first.found, second.found]

/-- An element whose end and all that follows it refer to nothing. -/
theorem refers_element (inside : Text) {label rest : Text} (tag : '<' ∉ inside ∧ '>' ∉ inside)
    (text : '<' ∉ label) (follows : closes ('<' :: rest) = true ∧ references ('<' :: rest) = []) :
    Refers ('<' :: (inside ++ '>' :: (label ++ '<' :: rest))) (Tag.reference? ⟨inside, label⟩).toList
    where
  closed := by
    have closed := (closed_of_closes follows.1).behind ('<' :: (inside ++ '>' :: label))
    have shape : '<' :: (inside ++ '>' :: (label ++ '<' :: rest)) =
        '<' :: (inside ++ '>' :: label) ++ '<' :: rest := by simp
    rw [shape]
    exact closed
  found := by rw [references_element tag text, follows.2, List.append_nil]

/-- A tag that stands by itself, and has no label. -/
theorem refers_alone {inside : Text} (tag : '<' ∉ inside ∧ '>' ∉ inside)
    (link : Tag.name ⟨inside, []⟩ ≠ "a".toList) (span : Tag.name ⟨inside, []⟩ ≠ "span".toList) :
    Refers ('<' :: (inside ++ ['>'])) (Tag.reference? ⟨inside, []⟩).toList := by
  have cut : Tag.ofPiece (inside ++ ['>']) = ⟨inside, []⟩ := by
    rw [Tag.ofPiece, Text.cutAt?_append tag.2]
  have plain : '<' ∉ inside ++ ['>'] := by
    rw [List.mem_append, not_or]
    exact ⟨tag.1, by decide⟩
  refine ⟨?_, by rw [references_tag plain, cut]⟩
  exact closed_tag plain (by simp) (by rw [cut]; exact link) (by rw [cut]; exact span) []

/-- Parts of one kind, one after the other. -/
theorem refers_flatMap {β : Type} {l : List β} {part : β → Text} {found : β → List Reference}
    (each : ∀ b ∈ l, Refers (part b) (found b)) : Refers (l.flatMap part) (l.flatMap found) := by
  induction l with
  | nil => exact refers_plain List.not_mem_nil
  | cons b l ih =>
    obtain ⟨head, tail⟩ := List.forall_mem_cons.1 each
    exact head.append (ih tail)

theorem refers_join {parts : List Text} {found : List (List Reference)}
    (each : List.Forall₂ Refers parts found) : Refers (Text.join ['\n'] parts) found.flatten := by
  have feed : Refers ['\n'] [] := refers_plain (by decide)
  induction each with
  | nil => exact refers_plain List.not_mem_nil
  | @cons part said parts found head rest ih =>
    cases parts with
    | nil =>
      cases rest
      rw [List.flatten_cons, List.flatten_nil, List.append_nil]
      exact head
    | cons next parts =>
      have joined := (head.append feed).append ih
      rw [List.append_nil] at joined
      exact joined

/-- Parts of one kind, with line feeds between them. -/
theorem refers_join_map {β : Type} {l : List β} {part : β → Text} {found : β → List Reference}
    (each : ∀ b ∈ l, Refers (part b) (found b)) :
    Refers (Text.join ['\n'] (l.map part)) (l.flatMap found) := by
  rw [List.flatMap_def]
  apply refers_join
  rw [List.forall₂_map_left_iff, List.forall₂_map_right_iff, List.forall₂_same]
  exact each

end Markup

end FlowReport
