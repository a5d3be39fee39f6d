import FlowReport.Proofs.Filling
import FlowReport.Proofs.Results
import FlowReport.Proofs.Scan

/-!
# Substitution

How a template reads, as a grammar that does not mention the scanner: a dollar sign doubles itself or
begins a field, whose name is as long as it can be or stands in braces, and is a mistake otherwise. A
text reads in exactly one way, and that is how the scanner reads it. What becomes of a template is then
said piece by piece: the text that each piece stands for, or the error of the first that stands for
nothing.
-/

namespace FlowReport

namespace Template

namespace Piece

/-- The name of a field: a letter or an underscore, and then digits too. -/
def IsName (name : Text) : Prop :=
  (∃ c ∈ name.head?, isNameStart c = true) ∧ ∀ c ∈ name, isNameChar c = true

/-- Behind a dollar sign, the text is no second one and begins with no name, bare or in braces. -/
structure IsMistaken (s : Text) : Prop where
  undoubled : s.head? ≠ some '$'
  unnamed : ∀ c ∈ s.head?, isNameStart c = false
  unbraced : ∀ name, IsName name → ¬ '{' :: (name ++ ['}']) <+: s

/-- The text reads as the pieces, from left to right. -/
inductive Reads : Text → List Piece → Prop where
  | nil : Reads [] []
  | char {c : Char} {s : Text} {ps : List Piece} (plain : c ≠ '$') (tail : Reads s ps) :
      Reads (c :: s) (.char c :: ps)
  | dollar {s : Text} {ps : List Piece} (tail : Reads s ps) :
      Reads ('$' :: '$' :: s) (.dollar :: ps)
  | bare {name s : Text} {ps : List Piece} (named : IsName name)
      (ends : ∀ c ∈ s.head?, isNameChar c = false) (tail : Reads s ps) :
      Reads ('$' :: (name ++ s)) (.field false name :: ps)
  | braced {name s : Text} {ps : List Piece} (named : IsName name) (tail : Reads s ps) :
      Reads ('$' :: '{' :: (name ++ '}' :: s)) (.field true name :: ps)
  | mistake {s : Text} {ps : List Piece} (mistaken : IsMistaken s) (tail : Reads s ps) :
      Reads ('$' :: s) (.mistake :: ps)

/-! ## Names -/

theorem isNameChar_of_isNameStart {c : Char} (start : isNameStart c = true) :
    isNameChar c = true := by rw [isNameChar, start, Bool.true_or]

/-- A name is read up to its end. -/
theorem nameAt_append {name s : Text} (named : IsName name)
    (ends : ∀ c ∈ s.head?, isNameChar c = false) : nameAt (name ++ s) = name := by
  obtain ⟨⟨c, head, start⟩, each⟩ := named
  obtain ⟨rest, rfl⟩ := List.head?_eq_some_iff.1 head
  have run : ∀ d ∈ rest, isNameChar d = true := fun d member =>
    each d (List.mem_cons_of_mem c member)
  rw [List.cons_append, nameAt, if_pos start]
  cases s with
  | nil => rw [List.append_nil, List.takeWhile_eq_self_iff.2 run]
  | cons d s => rw [Text.takeWhile_append_cons run (ends d rfl)]

/-- What is read is a name, and no character of a name stands behind it. -/
theorem exists_rest_of_nameAt {s : Text} (found : nameAt s ≠ []) :
    ∃ rest, s = nameAt s ++ rest ∧ IsName (nameAt s) ∧ ∀ c ∈ rest.head?, isNameChar c = false := by
  cases s with
  | nil => exact absurd rfl found
  | cons c s =>
    by_cases start : isNameStart c = true
    · have read : nameAt (c :: s) = c :: s.takeWhile isNameChar := if_pos start
      refine ⟨s.dropWhile isNameChar, ?_, ?_, fun d head => ?_⟩
      · rw [read, List.cons_append, List.takeWhile_append_dropWhile]
      · rw [read]
        exact ⟨⟨c, rfl, start⟩, List.forall_mem_cons.2
          ⟨isNameChar_of_isNameStart start, fun d member => List.mem_takeWhile_imp member⟩⟩
      · have stops := List.head?_dropWhile_not isNameChar s
        rw [Option.mem_def.1 head] at stops
        simpa using stops
    · exact absurd (if_neg start) found

/-! ## The scanner -/

theorem ofTextFrom_eq (skip : Nat) (s : Text) : ofTextFrom skip s = ofText (s.drop skip) := by
  induction s generalizing skip with
  | nil => cases skip <;> rfl
  | cons c s ih =>
    cases skip with
    | zero => rfl
    | succ skip => exact ih skip

/-- The scanner reads a piece and goes on behind it. -/
theorem ofText_of_next {c : Char} {s rest : Text} {piece : Piece} (read : next c s = piece)
    (split : c :: s = piece.source ++ rest) : ofText (c :: s) = piece :: ofText rest := by
  obtain ⟨d, tail, source⟩ := List.exists_cons_of_ne_nil (source_ne_nil piece)
  have behind : s.drop (piece.source.length - 1) = rest := by
    rw [source, List.cons_append] at split
    rw [(List.cons.inj split).2, source, List.length_cons, Nat.add_sub_cancel, List.drop_left]
  rw [ofText, ofTextFrom, read, ofTextFrom_eq, behind]

/-- A text that begins with neither mark is looked at for a bare name. -/
theorem afterDollar_other {s : Text} (undoubled : s.head? ≠ some '$') (open' : s.head? ≠ some '{') :
    afterDollar s = if nameAt s ≠ [] then .field false (nameAt s) else .mistake := by
  unfold afterDollar
  split
  · exact absurd rfl undoubled
  · exact absurd rfl open'
  · rfl

theorem afterDollar_bare {name s : Text} (named : IsName name)
    (ends : ∀ c ∈ s.head?, isNameChar c = false) :
    afterDollar (name ++ s) = .field false name := by
  have read := nameAt_append named ends
  obtain ⟨⟨c, head, start⟩, -⟩ := named
  obtain ⟨rest, rfl⟩ := List.head?_eq_some_iff.1 head
  have other : ∀ mark, isNameStart mark = false → (c :: rest ++ s).head? ≠ some mark := by
    intro mark plain same
    rw [Option.some.inj same, plain] at start
    cases start
  rw [afterDollar_other (other '$' (by decide)) (other '{' (by decide)), read,
    if_pos (List.cons_ne_nil c rest)]

theorem afterDollar_braced {name : Text} (named : IsName name) (s : Text) :
    afterDollar ('{' :: (name ++ '}' :: s)) = .field true name := by
  have read : nameAt (name ++ '}' :: s) = name := nameAt_append named (by simp; decide)
  have nonempty : name ≠ [] := by
    rintro rfl
    obtain ⟨⟨c, head, -⟩, -⟩ := named
    cases head
  rw [afterDollar, read, List.drop_left, if_pos ⟨nonempty, rfl⟩]

theorem afterDollar_mistaken {s : Text} (mistaken : IsMistaken s) : afterDollar s = .mistake := by
  obtain ⟨undoubled, unnamed, unbraced⟩ := mistaken
  by_cases open' : s.head? = some '{'
  · obtain ⟨r, rfl⟩ := List.head?_eq_some_iff.1 open'
    rw [afterDollar, if_neg]
    rintro ⟨found, closes⟩
    obtain ⟨rest, split, named, -⟩ := exists_rest_of_nameAt found
    refine unbraced _ named (List.cons_prefix_cons.2 ⟨rfl, ?_⟩)
    obtain ⟨tail, behind⟩ := List.head?_eq_some_iff.1 closes
    exact ⟨tail, by rw [List.append_assoc, List.singleton_append, ← behind, append_drop_nameAt]⟩
  · have none : nameAt s = [] := by
      cases s with
      | nil => rfl
      | cons c s => exact if_neg (by simp [unnamed c rfl])
    rw [afterDollar_other undoubled open', none, if_neg (not_not_intro rfl)]

/-- What stands behind a dollar sign is one of the four. -/
theorem exists_afterDollar (s : Text) : ∃ piece rest, '$' :: s = piece.source ++ rest ∧
    ∀ ps, Reads rest ps → Reads ('$' :: s) (piece :: ps) := by
  by_cases mistaken : IsMistaken s
  · exact ⟨.mistake, s, rfl, fun ps tail => .mistake mistaken tail⟩
  by_cases doubled : s.head? = some '$'
  · obtain ⟨rest, rfl⟩ := List.head?_eq_some_iff.1 doubled
    exact ⟨.dollar, rest, rfl, fun ps tail => .dollar tail⟩
  by_cases named : nameAt s = []
  · have unnamed : ∀ c ∈ s.head?, isNameStart c = false := by
      intro c head
      obtain ⟨rest, rfl⟩ := List.head?_eq_some_iff.1 head
      by_contra start
      rw [nameAt, if_pos (by simpa using start)] at named
      cases named
    have braced : ∃ name, IsName name ∧ '{' :: (name ++ ['}']) <+: s := by
      by_contra none
      exact mistaken ⟨doubled, unnamed, fun name own inside => none ⟨name, own, inside⟩⟩
    obtain ⟨name, own, rest, rfl⟩ := braced
    refine ⟨.field true name, rest, by simp [source], fun ps tail => ?_⟩
    have reads := Reads.braced own tail
    simpa using reads
  · obtain ⟨rest, split, own, ends⟩ := exists_rest_of_nameAt named
    refine ⟨.field false (nameAt s), rest, congrArg ('$' :: ·) split, fun ps tail => ?_⟩
    rw [split, nameAt_append own ends]
    exact .bare own ends tail

/-- Every text reads in some way. -/
theorem exists_reads (s : Text) : ∃ ps, Reads s ps := by
  induction h : s.length using Nat.strongRecOn generalizing s with
  | ind n ih =>
    subst h
    cases s with
    | nil => exact ⟨[], .nil⟩
    | cons c s =>
      by_cases dollar : c = '$'
      · subst dollar
        obtain ⟨piece, rest, split, reads⟩ := exists_afterDollar s
        have shorter : rest.length < ('$' :: s).length := by
          have := List.length_pos_iff.2 (source_ne_nil piece)
          rw [split, List.length_append]
          omega
        obtain ⟨ps, tail⟩ := ih _ shorter rest rfl
        exact ⟨piece :: ps, reads ps tail⟩
      · obtain ⟨ps, tail⟩ := ih _ (Nat.lt_succ_self _) s rfl
        exact ⟨.char c :: ps, .char dollar tail⟩

/-- The scanner follows the grammar. -/
theorem ofText_of_reads {s : Text} {ps : List Piece} (reads : Reads s ps) : ofText s = ps := by
  have dollar : ∀ s, next '$' s = afterDollar s := fun s => if_pos rfl
  induction reads with
  | nil => rfl
  | @char c s ps plain _ ih =>
    have split : c :: s = (char c).source ++ s := rfl
    rw [ofText_of_next (if_neg plain) split, ih]
  | @dollar s ps _ ih =>
    have split : '$' :: '$' :: s = Piece.dollar.source ++ s := rfl
    have read : next '$' ('$' :: s) = Piece.dollar := dollar _
    rw [ofText_of_next read split, ih]
  | bare named ends _ ih =>
    rw [ofText_of_next ((dollar _).trans (afterDollar_bare named ends)) rfl, ih]
  | braced named _ ih =>
    rw [ofText_of_next ((dollar _).trans (afterDollar_braced named _)) (by simp [source]; rfl), ih]
  | mistake mistaken _ ih =>
    rw [ofText_of_next ((dollar _).trans (afterDollar_mistaken mistaken)) rfl, ih]

/-- A text reads in exactly one way. -/
theorem reads_iff {s : Text} {ps : List Piece} : Reads s ps ↔ ofText s = ps := by
  refine ⟨ofText_of_reads, fun same => ?_⟩
  obtain ⟨others, reads⟩ := exists_reads s
  rwa [← same, ofText_of_reads reads]

/-- A value as a text: null is empty. -/
def shown : Json → WideText
  | .null => []
  | value => value.plain

/-- The text that a piece stands for, if there is one. -/
def text? (fields : Table Json) : Piece → Option WideText
  | char c => some [.char c]
  | dollar => some [.char '$']
  | field _ name => (fields.get? name).map fun value =>
      if markupEnding <:+ name then shown value else Markup.safeWide (shown value)
  | mistake => none

/-- Why a piece that stands for nothing, before the pieces `behind`, is not filled in. -/
def failure (behind : List Piece) : Piece → Mistake
  | field _ key => .missingField key
  | _ => .badPlaceholder behind

/-- What is told about a piece that stands for nothing, behind the pieces `front`. -/
def complaint (template : Text) (front : List Piece) : Piece → TemplateError
  | field _ key => .missingField template key
  | piece =>
    let place := endPlace ((front ++ [piece]).flatMap source)
    .badPlaceholder template place.1 place.2

/-- The first piece that stands for nothing has others in front of it that do not. -/
theorem exists_first {fields : Table Json} {pieces : List Piece} :
    (∃ piece ∈ pieces, piece.text? fields = none) ↔ ∃ front piece behind,
      pieces = front ++ piece :: behind ∧ (∀ other ∈ front, other.text? fields ≠ none) ∧
        piece.text? fields = none := by
  constructor
  · rintro ⟨piece, member, none⟩
    induction pieces with
    | nil => cases member
    | cons head tail ih =>
      by_cases here : head.text? fields = Option.none
      · exact ⟨[], head, tail, rfl, nofun, here⟩
      · have later : piece ∈ tail := by
          rcases List.mem_cons.1 member with rfl | later
          · exact absurd none here
          · exact later
        obtain ⟨front, first, behind, rfl, texts, stops⟩ := ih later
        exact ⟨head :: front, first, behind, rfl, List.forall_mem_cons.2 ⟨here, texts⟩, stops⟩
  · rintro ⟨front, piece, behind, rfl, -, none⟩
    exact ⟨piece, by simp, none⟩

end Piece

variable {fields : Table Json} {piece : Piece} {pieces behind : List Piece}

theorem fieldText_eq (key : Text) (value : Json) : fieldText key value =
    if markupEnding <:+ key then Piece.shown value else Markup.safeWide (Piece.shown value) := by
  simp only [fieldText, List.isSuffixOf_iff_suffix]
  cases value <;> rfl

/-! ## Filling in -/

theorem pieceText_eq_ok {text : WideText} :
    pieceText (fieldTexts fields) behind piece = .ok text ↔ piece.text? fields = some text := by
  cases piece with
  | field braced name =>
    simp only [pieceText, get?_fieldTexts, Piece.text?]
    cases fields.get? name <;> simp [fieldText_eq]
  | _ => simp [pieceText, Piece.text?]

theorem pieceText_eq_error {e : Mistake} : pieceText (fieldTexts fields) behind piece = .error e ↔
    piece.text? fields = none ∧ e = piece.failure behind := by
  cases piece with
  | field braced name =>
    simp only [pieceText, get?_fieldTexts, Piece.text?]
    cases fields.get? name <;> simp [Piece.failure, eq_comm]
  | _ => simp [pieceText, Piece.text?, Piece.failure, eq_comm]

/-- Pieces that all stand for texts are filled in with these. -/
theorem fillPieces_eq_ok {page : WideText} : fillPieces (fieldTexts fields) pieces = .ok page ↔
    ∃ texts, List.Forall₂ (fun piece text => piece.text? fields = some text) pieces texts ∧
      page = texts.flatten := by
  induction pieces generalizing page with
  | nil => simp [fillPieces, eq_comm]
  | cons piece behind ih =>
    rw [fillPieces, bind_eq_ok]
    constructor
    · rintro ⟨text, head, rest⟩
      obtain ⟨page, tail, done⟩ := bind_eq_ok.1 rest
      obtain ⟨texts, each, rfl⟩ := ih.1 tail
      cases done
      exact ⟨text :: texts, .cons (pieceText_eq_ok.1 head) each, rfl⟩
    · rintro ⟨_, _ | ⟨head, each⟩, rfl⟩
      exact ⟨_, pieceText_eq_ok.2 head, bind_eq_ok.2 ⟨_, ih.2 ⟨_, each, rfl⟩, rfl⟩⟩

/-- They are not if one of them stands for nothing, and the first such decides. -/
theorem fillPieces_eq_error {e : Mistake} : fillPieces (fieldTexts fields) pieces = .error e ↔
    ∃ front piece behind, pieces = front ++ piece :: behind ∧
      (∀ other ∈ front, other.text? fields ≠ none) ∧ piece.text? fields = none ∧
      e = piece.failure behind := by
  induction pieces with
  | nil => simp [fillPieces]
  | cons piece behind ih =>
    rw [fillPieces, bind_eq_error]
    constructor
    · rintro (here | ⟨text, head, rest⟩)
      · exact ⟨[], piece, behind, rfl, List.forall_mem_nil _, pieceText_eq_error.1 here⟩
      rcases bind_eq_error.1 rest with later | ⟨_, -, done⟩
      · obtain ⟨front, first, last, rfl, texts, stops⟩ := ih.1 later
        have given : piece.text? fields ≠ none := by
          rw [pieceText_eq_ok.1 head]
          exact Option.some_ne_none text
        exact ⟨piece :: front, first, last, rfl, List.forall_mem_cons.2 ⟨given, texts⟩, stops⟩
      · cases done
    · rintro ⟨front, first, last, split, texts, stops⟩
      cases front with
      | nil =>
        obtain ⟨rfl, rfl⟩ := List.cons.inj split
        exact .inl (pieceText_eq_error.2 stops)
      | cons head front =>
        obtain ⟨rfl, rfl⟩ := List.cons.inj split
        obtain ⟨given, texts⟩ := List.forall_mem_cons.1 texts
        obtain ⟨text, given⟩ := Option.ne_none_iff_exists'.1 given
        exact .inr ⟨text, pieceText_eq_ok.2 given, bind_eq_error.2
          (.inl (ih.2 ⟨front, first, last, rfl, texts, stops⟩))⟩

/-- Fields that do not occur do not matter. -/
theorem fillPieces_congr {others : Table Json}
    (same : ∀ braced key, .field braced key ∈ pieces → others.get? key = fields.get? key) :
    fillPieces (fieldTexts others) pieces = fillPieces (fieldTexts fields) pieces := by
  induction pieces with
  | nil => rfl
  | cons piece behind ih =>
    have head : pieceText (fieldTexts others) behind piece =
        pieceText (fieldTexts fields) behind piece := by
      cases piece with
      | field braced key =>
        simp only [pieceText, get?_fieldTexts, same braced key List.mem_cons_self]
      | _ => rfl
    rw [fillPieces, fillPieces, head,
      ih fun braced key member => same braced key (List.mem_cons_of_mem piece member)]

/-- The place of a piece is that of the last character of the text up to it. -/
theorem placeBefore_eq {template : Text} {front : List Piece}
    (split : Piece.ofText template = front ++ piece :: behind) :
    placeBefore template behind = endPlace ((front ++ [piece]).flatMap Piece.source) := by
  have taken : (front ++ piece :: behind).take ((front ++ piece :: behind).length - behind.length)
      = front ++ [piece] := by
    rw [List.append_cons, List.length_append, Nat.add_sub_cancel, List.take_left]
  rw [placeBefore, split, taken]

end Template

namespace Templates

open Template

variable {templates : Templates} {name template : Text} {fields : Table Json}

/-- What is told about a template that was not filled in. -/
def refusal (name template : Text) : Mistake → TemplateError
  | .missingField key => .missingField name key
  | .badPlaceholder behind =>
    .badPlaceholder name (placeBefore template behind).1 (placeBefore template behind).2

theorem render_eq (loaded : templates.get? name = some template) : templates.render name fields =
    (fill (fieldTexts fields) template).mapError fun e => .template (refusal name template e) := by
  simp only [render, loaded]
  cases fill (fieldTexts fields) template with
  | ok page => rfl
  | error e => cases e <;> rfl

theorem refusal_failure {front behind : List Piece} {piece : Piece}
    (split : Piece.ofText template = front ++ piece :: behind) :
    refusal name template (piece.failure behind) = piece.complaint name front := by
  cases piece with
  | field braced key => rfl
  | _ => simp [refusal, Piece.failure, Piece.complaint, placeBefore_eq split]

/-- A page is made if every piece of the template stands for a text, and is made of these. -/
theorem render_eq_ok (loaded : templates.get? name = some template) {page : WideText} :
    templates.render name fields = .ok page ↔ ∃ texts,
      List.Forall₂ (fun piece text => piece.text? fields = some text) (Piece.ofText template) texts ∧
        page = texts.flatten := by
  rw [← fillPieces_eq_ok, render_eq loaded, fill]
  cases fillPieces (fieldTexts fields) (Piece.ofText template) <;> simp [Except.mapError]

/-- Otherwise the first piece that stands for none decides the error. -/
theorem render_eq_error (loaded : templates.get? name = some template) {e : Error} :
    templates.render name fields = .error e ↔ ∃ front piece behind,
      Piece.ofText template = front ++ piece :: behind ∧
        (∀ other ∈ front, other.text? fields ≠ none) ∧ piece.text? fields = none ∧
        e = .template (piece.complaint name front) := by
  have refused : templates.render name fields = .error e ↔ ∃ failure,
      fillPieces (fieldTexts fields) (Piece.ofText template) = .error failure ∧
        e = .template (refusal name template failure) := by
    rw [render_eq loaded, fill]
    cases fillPieces (fieldTexts fields) (Piece.ofText template) <;>
      simp [Except.mapError, eq_comm]
  rw [refused]
  constructor
  · rintro ⟨_, fails, rfl⟩
    obtain ⟨front, piece, behind, split, texts, none, rfl⟩ := fillPieces_eq_error.1 fails
    exact ⟨front, piece, behind, split, texts, none, by rw [refusal_failure split]⟩
  · rintro ⟨front, piece, behind, split, texts, none, rfl⟩
    exact ⟨_, fillPieces_eq_error.2 ⟨front, piece, behind, split, texts, none, rfl⟩,
      by rw [refusal_failure split]⟩

/-- Filling in a template is one pass over it. The text reads in exactly one way as characters,
doubled dollar signs, fields and mistakes. The page is made, in their order, of what these stand for;
there is none if and only if some piece stands for nothing, and then the first such piece is told.
What a field brings in is not looked at again, and fields that are not in the template do not
matter. -/
theorem render_one_pass (loaded : templates.get? name = some template) :
    ∃ pieces, Piece.Reads template pieces ∧ (∀ others, Piece.Reads template others → others = pieces) ∧
      ∀ fields : Table Json,
        (∀ page, templates.render name fields = .ok page ↔ ∃ texts,
          List.Forall₂ (fun piece text => piece.text? fields = some text) pieces texts ∧
            page = texts.flatten) ∧
        ((∃ e, templates.render name fields = .error (.template e)) ↔
          ∃ piece ∈ pieces, piece.text? fields = none) ∧
        (∀ e, templates.render name fields = .error e ↔ ∃ front piece behind,
          pieces = front ++ piece :: behind ∧ (∀ other ∈ front, other.text? fields ≠ none) ∧
            piece.text? fields = none ∧ e = .template (piece.complaint name front)) ∧
        ∀ others : Table Json,
          (∀ braced key, .field braced key ∈ pieces → others.get? key = fields.get? key) →
            templates.render name others = templates.render name fields := by
  refine ⟨Piece.ofText template, Piece.reads_iff.2 rfl, fun others reads =>
    (Piece.reads_iff.1 reads).symm, fun fields => ⟨fun page => render_eq_ok loaded, ?_,
      fun e => render_eq_error loaded, fun others same => ?_⟩⟩
  · rw [Piece.exists_first]
    constructor
    · rintro ⟨e, fails⟩
      obtain ⟨front, piece, behind, split, texts, none, -⟩ := (render_eq_error loaded).1 fails
      exact ⟨front, piece, behind, split, texts, none⟩
    · rintro ⟨front, piece, behind, split, texts, none⟩
      exact ⟨_, (render_eq_error loaded).2 ⟨front, piece, behind, split, texts, none, rfl⟩⟩
  · rw [render_eq loaded, render_eq loaded, fill, fill, fillPieces_congr same]

/-- A template with a doubled dollar sign, names side by side, a name in braces and a null. -/
def mixedTemplate : Text := "a$$b $x-${y_html}$z$other"

/-- Values that look like fields themselves. -/
def mixedValues : Table Json := [
  ("x", .ofText "$other & ${y_html}"), ("y_html", .ofText "<$x>"), ("z", .null),
  ("other", .ofText "o"), ("unused", .ofText "$")]

/-- The page that they make. -/
def mixedPage : Text := "a$b $other &amp; ${y_html}-<$x>o"

theorem render_one_pass_mixed :
    Table.get? [(['p'], mixedTemplate)] ['p'] = some mixedTemplate ∧
      ∃ pieces, Piece.Reads mixedTemplate pieces ∧
        (∃ texts, List.Forall₂ (fun piece text => piece.text? mixedValues = some text) pieces texts ∧
          texts.flatten = mixedPage.wide) ∧
        (∀ e, Templates.render [(['p'], mixedTemplate)] ['p'] mixedValues ≠ .error (.template e)) ∧
        Templates.render [(['p'], mixedTemplate)] ['p'] (mixedValues.take 2) =
          .error (.template (.missingField ['p'] ['z'])) := by
  have loaded : Table.get? [(['p'], mixedTemplate)] ['p'] = some mixedTemplate := rfl
  obtain ⟨pieces, reads, -, pages⟩ := render_one_pass loaded
  have made : Templates.render [(['p'], mixedTemplate)] ['p'] mixedValues =
    .ok mixedPage.wide := rfl
  obtain ⟨texts, each, whole⟩ := ((pages mixedValues).1 _).1 made
  refine ⟨loaded, pieces, reads, ⟨texts, each, whole.symm⟩, fun e => ?_, rfl⟩
  rw [made]
  nofun

end Templates

end FlowReport
