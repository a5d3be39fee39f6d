import FlowReport.Proofs.ImplicitBlocks
import FlowReport.Proofs.Signatures

/-!
# The slot of the first block

A parameter takes a slot unless a name that is no number stands at its end. The name is looked for in
the text of the parameter, and a type can be named too: a parameter that is nothing but a named
structure type is taken for a named one. So the first block of a function, if no line opens it, is
named by the number of the parameters without a name exactly if there is no such parameter.
-/

namespace FlowReport.Assembly

/-! ## Ends of texts -/

/-- A text that ends with a bracket or a star. -/
def Closed (s : Text) : Prop := ∃ front, ∃ c ∈ ['*', ')', ']', '}', '>'], s = front ++ [c]

theorem Closed.append {s : Text} (closed : Closed s) (front : Text) : Closed (front ++ s) := by
  obtain ⟨inner, c, closes, rfl⟩ := closed
  exact ⟨front ++ inner, c, closes, (List.append_assoc ..).symm⟩

theorem closed_parenthesized (s : Text) : Closed (parenthesized s) := ⟨'(' :: s, ')', by decide, rfl⟩

/-- A character that is no quote does not close a string. -/
theorem Tidy.of_concat {s : Text} {c : Char} (tidy : Tidy (s ++ [c])) (quote : c ≠ '"') :
    Tidy s := by
  generalize whole : s ++ [c] = t at tidy
  induction tidy generalizing s with
  | nil => simp at whole
  | cons plain _ ih =>
    cases s with
    | nil => exact .nil
    | cons a s =>
      obtain ⟨rfl, rest⟩ := List.cons.inj whole
      exact .cons plain (ih rest)
  | @quoted bs rest tail ih =>
    rcases List.eq_nil_or_concat rest with rfl | ⟨rest, d, rfl⟩
    · have last := congrArg List.getLast? whole
      rw [List.getLast?_concat, ← List.cons_append, List.getLast?_concat] at last
      exact absurd (Option.some.inj last) quote
    · have shape : '"' :: (escape bs ++ '"' :: (rest ++ [d])) =
          ('"' :: (escape bs ++ '"' :: rest)) ++ [d] := by simp
      rw [List.concat_eq_append, shape] at whole
      obtain ⟨rfl, last⟩ := List.append_inj' whole rfl
      rw [List.concat_eq_append] at ih
      exact .quoted bs (ih (by rw [last]))

/-! ## Reading names -/

namespace Ident

theorem quotedBody?_cons {c : Char} (quote : c ≠ '"') (backslash : c ≠ '\\') (s : Text) :
    quotedBody? (c :: s) = (quotedBody? s).map fun (b, r) => (c :: b, r) := by
  rw [quotedBody?.eq_def]
  split
  · rename_i none
    cases none
  · rename_i same
    exact absurd (List.cons.inj same).1 quote
  · rename_i same
    exact absurd (List.cons.inj same).1 backslash
  · rename_i same
    obtain ⟨rfl, rfl⟩ := List.cons.inj same
    rw [if_neg backslash]

/-- Written bytes end at the quote behind them. -/
theorem quotedBody?_escape (bs : Bytes) (rest : Text) :
    quotedBody? (escape bs ++ '"' :: rest) = some (escape bs, rest) := by
  have digit : ∀ n < 16, upperHex n ≠ '\n' ∧ upperHex n ≠ '"' ∧ upperHex n ≠ '\\' := by decide
  induction bs with
  | nil => rfl
  | cons b bs ih =>
    have bound := b.toNat_lt
    have cons : escape (b :: bs) = escapedByte b ++ escape bs := rfl
    rw [cons, escapedByte, List.append_assoc]
    split
    · rename_i plain
      obtain ⟨-, -, quote, backslash⟩ := ne_of_isPlainByte plain
      rw [List.singleton_append, quotedBody?_cons quote backslash, ih]
      rfl
    · obtain ⟨noBreak, -, -⟩ := digit (b.toNat / 16) (by omega)
      obtain ⟨-, quote, backslash⟩ := digit (b.toNat % 16) (by omega)
      show quotedBody? ('\\' :: upperHex (b.toNat / 16) :: upperHex (b.toNat % 16) ::
        (escape bs ++ '"' :: rest)) = _
      rw [quotedBody?, if_neg noBreak, quotedBody?_cons quote backslash, ih]
      rfl

end Ident

/-- A name is read up to its end. -/
theorem Name.read?_text (name : Name) {rest : Text} (ends : ∀ c ∈ rest.head?, isBare c = false) :
    Ident.read? (name.text ++ rest) = some (name.ident, rest) := by
  cases name with
  | quoted bytes =>
    rw [Name.text, written, List.cons_append, List.append_assoc, List.singleton_append,
      Ident.read?, Ident.quotedBody?_escape]
    rfl
  | bare text fine =>
    cases rest with
    | cons c rest => exact Ident.read?_bare fine.1 fine.2 (ends c rfl) rest
    | nil =>
      obtain ⟨a, w, rfl⟩ := List.exists_cons_of_ne_nil fine.1
      have quote : a ≠ '"' := by
        rintro rfl
        exact absurd (fine.2 _ List.mem_cons_self) (by decide)
      have run : (a :: w).takeWhile isBare = a :: w := List.takeWhile_eq_self_iff.2 fine.2
      have none : (a :: w).dropWhile isBare = [] := List.dropWhile_eq_nil_iff.2 fine.2
      rw [Name.text, List.append_nil, Ident.read?]
      · rw [run, none]
        rfl
      · rintro r ⟨⟩
        exact quote rfl

namespace Function

/-- The name of a function is found behind the first `@`. -/
theorem callee?_append {front : Text} (unmarked : '@' ∉ front) (name : Name) (rest : Text) :
    callee? (front ++ '@' :: (name.text ++ '(' :: rest)) = some (name.ident, rest) := by
  induction front with
  | nil =>
    rw [List.nil_append, callee?, Text.dropPrefix?, if_pos rfl, Text.dropPrefix?]
    simp only [Option.bind_eq_bind, Option.bind_some]
    rw [name.read?_text (by simp; decide)]
    rfl
  | cons c front ih =>
    rw [List.mem_cons, not_or] at unmarked
    rw [List.cons_append, callee?, Text.dropPrefix?, if_neg unmarked.1, ih unmarked.2]
    rfl

/-! ## The name at the end of a parameter -/

/-- A text that does not end where a name could does not begin one. -/
theorem parameterName?_cons {c : Char} {s : Text}
    (later : c = '%' → ∀ ident r, Ident.read? s = some (ident, r) → ∃ d ∈ r, isBlank d = false) :
    parameterName? (c :: s) = parameterName? s := by
  rw [parameterName?, Text.dropPrefix?]
  by_cases percent : c = '%'
  · rw [if_pos percent.symm, Text.dropPrefix?]
    cases read : Ident.read? s with
    | none => simp [read]
    | some found =>
      obtain ⟨ident, r⟩ := found
      obtain ⟨d, member, nonblank⟩ := later percent ident r read
      have more : Text.dropBlank r ≠ [] := by
        intro none
        have blank := List.dropWhile_eq_nil_iff.1 none d member
        rw [nonblank] at blank
        cases blank
      simp [read, more]
  · rw [if_neg (Ne.symm percent)]
    rfl

theorem parameterName?_eq_none {s : Text} (unmarked : '%' ∉ s) : parameterName? s = none := by
  induction s with
  | nil => rfl
  | cons c s ih =>
    rw [List.mem_cons, not_or] at unmarked
    rw [parameterName?_cons fun percent => absurd percent.symm unmarked.1, ih unmarked.2]

/-- Behind a bare identifier stands everything from the first other character on. -/
theorem eq_of_read? {c : Char} {s r : Text} {ident : Ident} (quote : c ≠ '"')
    (read : Ident.read? (c :: s) = some (ident, r)) : r = (c :: s).dropWhile isBare := by
  rw [Ident.read?] at read
  · split at read
    · cases read
    · cases read
      rfl
  · rintro t ⟨⟩
    exact quote rfl

/-- Where strings are closed, a quoted name is not the end of the text. -/
theorem visible_of_quotedBody? {s b r : Text} (tidy : Tidy s)
    (read : Ident.quotedBody? s = some (b, r)) : ∃ d ∈ r, isBlank d = false := by
  induction tidy generalizing b r with
  | nil => cases read
  | cons plain _ ih =>
    rw [Ident.quotedBody?_cons plain.1 plain.2] at read
    obtain ⟨⟨b, r⟩, read, ⟨⟩⟩ := Option.map_eq_some_iff.1 read
    exact ih read
  | quoted bs =>
    cases read
    exact ⟨'"', List.mem_append_right _ List.mem_cons_self, by decide⟩

/-- No name begins in a string. -/
theorem parameterName?_string {s rest : Text} (unquoted : '"' ∉ s) (tidy : Tidy rest) :
    parameterName? (s ++ '"' :: rest) = parameterName? rest := by
  induction s with
  | nil => exact parameterName?_cons fun percent => absurd percent (by decide)
  | cons c s ih =>
    rw [List.mem_cons, not_or] at unquoted
    rw [List.cons_append, parameterName?_cons, ih unquoted.2]
    intro _ ident r read
    cases s with
    | nil =>
      obtain ⟨⟨b, r⟩, read, ⟨⟩⟩ := Option.map_eq_some_iff.1 read
      exact visible_of_quotedBody? tidy read
    | cons d s =>
      have quote : d ≠ '"' := fun same => unquoted.2 (same ▸ List.mem_cons_self)
      refine ⟨'"', ?_, by decide⟩
      rw [eq_of_read? quote read, show d :: s.append ('"' :: rest) = (d :: s) ++ '"' :: rest from rfl,
        List.dropWhile_append]
      split
      · rw [List.dropWhile_cons_of_neg (by decide)]
        exact List.mem_cons_self
      · exact List.mem_append_right _ List.mem_cons_self

/-- A bare identifier that begins before `s` is over where `s` begins, so the whole of `s` is behind
it. -/
theorem mem_behind_read? {front s r : Text} {ident : Ident} {d : Char}
    (stops : ∃ c ∈ s.head?, isBare c = false ∧ c ≠ '"') (member : d ∈ s)
    (bare : (front ++ s).head? ≠ some '"') (read : Ident.read? (front ++ s) = some (ident, r)) :
    d ∈ r := by
  have rest : r = (front ++ s).dropWhile isBare := by
    cases whole : front ++ s with
    | nil =>
      rw [whole] at read
      cases read
    | cons a w =>
      rw [whole] at read bare
      exact eq_of_read? (fun same => bare (by rw [same]; rfl)) read
  rw [rest, List.dropWhile_append]
  split
  · obtain ⟨a, head, stop, -⟩ := stops
    obtain ⟨w, rfl⟩ := List.head?_eq_some_iff.1 head
    rwa [List.dropWhile_cons_of_neg (by simp [stop])]
  · exact List.mem_append_right _ member

/-- A name at the end of a text is found whatever stands before it, if this is told apart from it. -/
theorem parameterName?_append {front s : Text} (tidy : Tidy front) (tidy' : Tidy s)
    (stops : ∃ c ∈ s.head?, isBare c = false ∧ c ≠ '"') (visible : ∃ d ∈ s, isBlank d = false) :
    parameterName? (front ++ s) = parameterName? s := by
  obtain ⟨d, member, nonblank⟩ := visible
  induction tidy with
  | nil => rfl
  | @cons c front plain tidy ih =>
    rw [List.cons_append, parameterName?_cons, ih]
    intro _ ident r read
    -- what stands behind a name that begins in `front` ends with the whole of `s`
    refine ⟨d, ?_, nonblank⟩
    cases tidy with
    | nil =>
      refine mem_behind_read? stops member (fun same => ?_) read
      obtain ⟨a, head, -, quote⟩ := stops
      refine quote (Option.some.inj ?_)
      rw [← Option.mem_def.1 head, ← same]
      rfl
    | cons plain =>
      refine mem_behind_read? stops member (fun same => ?_) read
      exact plain.1 (Option.some.inj same)
    | quoted bs =>
      rw [List.cons_append, List.append_assoc, List.cons_append, Ident.read?,
        Ident.quotedBody?_escape] at read
      cases read
      exact List.mem_append_right _ member
  | @quoted bs front tidy ih =>
    rw [List.cons_append, List.append_assoc, List.cons_append,
      parameterName?_cons fun percent => absurd percent (by decide),
      parameterName?_string (fun inside => (isPrinting_of_mem_escape inside).2 rfl)
        (tidy.append tidy'), ih]

/-- The name of a parameter is the one at its end. -/
theorem parameterName?_name {front : Text} (tidy : Tidy front) (name : Name) :
    parameterName? (front ++ ' ' :: '%' :: name.text) = some name.ident := by
  have tidy' : Tidy (' ' :: '%' :: name.text) :=
    .cons (by decide) (.cons (by decide) name.piece.tidy)
  have read := @Name.read?_text name [] (by simp)
  rw [List.append_nil] at read
  rw [parameterName?_append tidy tidy' ⟨' ', rfl, by decide⟩ ⟨'%', by simp, by decide⟩,
    parameterName?_cons fun percent => absurd percent (by decide), parameterName?,
    Text.dropPrefix?, if_pos rfl, Text.dropPrefix?]
  simp [read, Text.dropBlank]

/-- What ends with a bracket or a star has no name at its end. -/
theorem parameterName?_closed {s : Text} (tidy : Tidy s) (closed : Closed s) :
    parameterName? s = none := by
  have each : ∀ c ∈ ['*', ')', ']', '}', '>'], isBare c = false ∧ c ≠ '"' ∧ c ≠ '\\' ∧
      isBlank c = false ∧ '%' ∉ [c] := by decide
  obtain ⟨front, c, closes, rfl⟩ := closed
  obtain ⟨stops, quote, backslash, visible, unmarked⟩ := each c closes
  rw [parameterName?_append (tidy.of_concat quote) (.cons ⟨quote, backslash⟩ .nil)
    ⟨c, rfl, stops, quote⟩ ⟨c, List.mem_cons_self, visible⟩, parameterName?_eq_none unmarked]

end Function

theorem Word.unmarked (w : Word) : '%' ∉ w.text :=
  fun member => absurd (w.bare _ member) (by decide)

/-- An attribute has no name at its end. -/
theorem Attribute.parameterName?_text (a : Attribute) :
    Function.parameterName? (' ' :: a.text) = none := by
  have blank : ∀ s, Function.parameterName? (' ' :: s) = Function.parameterName? s :=
    fun s => Function.parameterName?_cons fun percent => absurd percent (by decide)
  have string : ∀ (bs : Bytes) {rest : Text}, Tidy rest →
      Function.parameterName? (written bs ++ rest) = Function.parameterName? rest := by
    intro bs rest tidy
    rw [written, List.cons_append, List.append_assoc, List.singleton_append,
      Function.parameterName?_cons fun percent => absurd percent (by decide),
      Function.parameterName?_string (fun inside => (isPrinting_of_mem_escape inside).2 rfl) tidy]
  rw [blank]
  cases a with
  | word w => exact Function.parameterName?_eq_none w.unmarked
  | number w n =>
    refine Function.parameterName?_eq_none ?_
    simp only [text, List.mem_append, List.mem_cons, not_or]
    refine ⟨w.unmarked, by decide, fun member => ?_⟩
    exact absurd (Numeral.isDigit_of_mem_ofNat member) (by decide)
  | call w arguments inner =>
    exact Function.parameterName?_closed (call w arguments inner).piece.tidy
      ((closed_parenthesized arguments).append w.text)
  | string key value? =>
    cases value? with
    | none =>
      have closed := string key .nil
      rwa [List.append_nil] at closed
    | some value =>
      have closed := string value .nil
      rw [List.append_nil] at closed
      rw [text, string key (.cons (by decide) (Piece.quoted value).tidy),
        Function.parameterName?_cons fun percent => absurd percent (by decide), closed]
      rfl

/-- Of the types only a named one has a name at its end. -/
theorem Ty.parameterName?_text (t : Ty) : Function.parameterName? t.text =
    match t with
    | .named name => some name.ident
    | _ => none := by
  have none_of_closed : Closed t.text → Function.parameterName? t.text = none :=
    Function.parameterName?_closed t.piece.tidy
  cases t with
  | named name =>
    have here := Function.parameterName?_name .nil name
    rwa [List.nil_append, Function.parameterName?_cons fun percent => absurd percent (by decide)]
      at here
  | word w => exact Function.parameterName?_eq_none w.unmarked
  | pointer target => exact none_of_closed ⟨target.text, '*', by decide, rfl⟩
  | placed target space =>
    exact none_of_closed (((closed_parenthesized _).append (' ' :: "addrspace".toList)).append _)
  | struct fields => exact none_of_closed ⟨'{' :: _, '}', by decide, rfl⟩
  | packed fields => exact none_of_closed ⟨'<' :: _, '>', by decide, rfl⟩
  | array count element => exact none_of_closed ⟨'[' :: _, ']', by decide, rfl⟩
  | vector count element => exact none_of_closed ⟨'<' :: _, '>', by decide, rfl⟩
  | scalable count element => exact none_of_closed ⟨'<' :: _, '>', by decide, rfl⟩
  | function result parameters variadic =>
    exact none_of_closed (((closed_parenthesized _).append [' ']).append _)

/-! ## Slots of parameters -/

/-- A text that does not begin with a dot. -/
def Undotted (s : Text) : Prop := ∃ c ∈ s.head?, c ≠ '.'

theorem Undotted.append {s : Text} (undotted : Undotted s) (t : Text) : Undotted (s ++ t) := by
  obtain ⟨c, head, other⟩ := undotted
  obtain ⟨rest, rfl⟩ := List.head?_eq_some_iff.1 head
  exact ⟨c, rfl, other⟩

/-- A type begins with a letter, a mark or a bracket. -/
theorem Ty.undotted (t : Ty) : Undotted t.text := by
  cases t with
  | word w => exact ⟨w.first, rfl, fun dot => absurd (dot ▸ w.fine.1) (by decide)⟩
  | named name => exact ⟨'%', rfl, by decide⟩
  | pointer target => exact target.undotted.append _
  | placed target space => exact target.undotted.append _
  | struct fields => exact ⟨'{', rfl, by decide⟩
  | packed fields => exact ⟨'<', rfl, by decide⟩
  | array count element => exact ⟨'[', rfl, by decide⟩
  | vector count element => exact ⟨'<', rfl, by decide⟩
  | scalable count element => exact ⟨'<', rfl, by decide⟩
  | function result parameters variadic => exact result.undotted.append _

namespace Parameter

/-- The parameter has no name, or a number for one. -/
def isUnnamed (p : Parameter) : Bool := p.name?.all (·.ident.isNumber)

/-- The parameter is nothing but a named type, and the name of the type is no number. -/
def isMistaken (p : Parameter) : Bool :=
  match p.name?, p.type, p.attributes with
  | none, .named name, [] => !name.ident.isNumber
  | _, _, _ => false

theorem isUnnamed_of_isMistaken {p : Parameter} (mistaken : p.isMistaken = true) :
    p.isUnnamed = true := by
  unfold isMistaken at mistaken
  split at mistaken
  · rename_i unnamed _ _
    rw [isUnnamed, unnamed]
    rfl
  · cases mistaken

/-- Without a name of its own, a parameter has one at its end only if it is a named type. -/
theorem parameterName?_front (p : Parameter) : Function.parameterName? p.front =
    match p.type, p.attributes with
    | .named name, [] => some name.ident
    | _, _ => none := by
  obtain ⟨type, attributes, name?⟩ := p
  rcases List.eq_nil_or_concat attributes with rfl | ⟨others, a, rfl⟩
  · rw [front, List.flatMap_nil, List.append_nil, Ty.parameterName?_text]
    cases type <;> rfl
  · have whole : front ⟨type, others.concat a, name?⟩ =
        front ⟨type, others, none⟩ ++ ' ' :: a.text := by
      simp [front]
    rw [whole, Function.parameterName?_append (piece_front _).tidy
      (.cons (by decide) a.piece.tidy) ⟨' ', rfl, by decide⟩, a.parameterName?_text]
    · cases type <;> simp
    · obtain ⟨⟨c, first, nonblank⟩, -⟩ := a.piece.solid
      exact ⟨c, List.mem_cons_of_mem _ (List.mem_of_head? first), nonblank⟩

/-- **Which parameters take a slot**: those without a name, but for the ones whose type is taken for
the name. -/
theorem takesSlot_text (p : Parameter) :
    Function.takesSlot p.text = (p.isUnnamed && !p.isMistaken) := by
  have front : Undotted p.front := p.type.undotted.append _
  have dots : p.text ≠ "...".toList := by
    have undotted : Undotted p.text := by
      unfold text
      split
      · exact front.append _
      · exact front
    obtain ⟨c, head, other⟩ := undotted
    intro same
    rw [same] at head
    cases head
    exact other rfl
  have found : Function.parameterName? p.text =
      p.name?.elim (Function.parameterName? p.front) fun name => some name.ident := by
    unfold text
    split
    · rename_i name named
      rw [Function.parameterName?_name p.piece_front.tidy, named]
      rfl
    · rename_i unnamed
      rw [unnamed]
      rfl
  rw [Function.takesSlot, decide_eq_true dots, Bool.true_and, found, p.parameterName?_front]
  obtain ⟨type, attributes, name?⟩ := p
  cases name? with
  | some name =>
    show name.ident.isNumber = (name.ident.isNumber && true)
    rw [Bool.and_true]
  | none =>
    cases type with
    | named name =>
      cases attributes with
      | nil => exact (Bool.not_not _).symm
      | cons => rfl
    | _ => rfl

end Parameter

/-- The mistaken parameters are missing from those without a name. -/
theorem countP_takesSlot (ps : List Parameter) :
    ps.countP (fun p => p.isUnnamed && !p.isMistaken) + ps.countP Parameter.isMistaken =
      ps.countP Parameter.isUnnamed := by
  induction ps with
  | nil => rfl
  | cons p ps ih =>
    simp only [List.countP_cons]
    by_cases mistaken : p.isMistaken = true
    · simp [mistaken, Parameter.isUnnamed_of_isMistaken mistaken]
      omega
    · simp only [mistaken, Bool.not_false, Bool.and_true, Bool.false_eq_true, if_false]
      omega

/-- The slots that the parameters of a printed header take. -/
theorem Signature.parameterSlots_eq {sig : Signature} (front : '@' ∉ sig.front)
    (matched : Matched 0 sig.list) {header : List Text}
    (printed : Function.headerText header = sig.text) : Function.parameterSlots header =
      sig.parameters.countP fun p => p.isUnnamed && !p.isMistaken := by
  have own : Function.takesSlot ∘ Parameter.text = fun p => p.isUnnamed && !p.isMistaken :=
    funext Parameter.takesSlot_text
  rw [Function.parameterSlots, printed, text, Function.callee?_append front]
  show Function.slotCount (Function.parameters (sig.list ++ ')' :: sig.rest)) = _
  rw [Function.parameters, (enclosed?_append_iff _).2 matched, Option.getD_some,
    sig.splitFields_list, Function.slotCount, withDots]
  split
  · rw [List.countP_append, List.countP_map, own]
    rfl
  · rw [List.countP_map, own]

/-- The first block that is read, if no line opens it, is named by the first free slot. -/
theorem Slots.name_of_first {s s' : Slots} {pairs : List (Item × Option Text)}
    (run : s.Run pairs s') (closed : s.closed = true)
    (marks : ∀ p ∈ pairs, ∀ name line, p.1 = .mark name line → IsMark line) {pos : Nat} {b : Block}
    (first : (Block.group pos pairs).2.head? = some b) (unlabelled : ¬ b.Labelled) :
    b.name = Numeral.ofNat s.next := by
  induction run generalizing pos with
  | nil => cases first
  | @cons s mid s' item name? pairs head tail ih =>
    obtain ⟨own, others⟩ := List.forall_mem_cons.1 marks
    cases head with
    | gap line => exact ih closed others first
    | @mark name _ line opened =>
      cases first
      exact absurd ((labelled_ofItems name pos rfl _).2 ⟨line, rfl, own name line rfl⟩) unlabelled
    | next unclosed passed =>
      rw [closed] at unclosed
      cases unclosed
    | first closed written opened passed =>
      cases first
      exact eq_of_write written

namespace Module

/-- **The slot of the first block.** Of a function whose header was printed from a signature, a first
block without a label is named by the number of the parameters that have no name of their own or a
number for one, less those that are nothing but a named type; so the name is the number that the
language gives the block exactly if there is no such parameter. -/
theorem entry_slot_iff {text name : Text} {m : Module} (read : ofText text name = .ok m)
    {f : Function} (member : f ∈ m.funcs) {sig : Signature}
    (printed : Function.headerText f.header = sig.text) (front : '@' ∉ sig.front)
    (matched : Matched 0 sig.list) {b : Block} (first : f.blocks.head? = some b)
    (unlabelled : ¬ b.Labelled) :
    b.name = Numeral.ofNat
        (sig.parameters.countP Parameter.isUnnamed - sig.parameters.countP Parameter.isMistaken) ∧
      (b.name = Numeral.ofNat (sig.parameters.countP Parameter.isUnnamed) ↔
        ∀ p ∈ sig.parameters, p.isMistaken = false) := by
  obtain ⟨m', f, header, body, closing, rfl, -, made⟩ := exists_definition read member
  obtain ⟨pairs, s', same, run, rfl, rfl, blocks⟩ := Function.exists_run made
  rw [blocks_locateFunction, List.head?_map, blocks] at first
  obtain ⟨b, head, rfl⟩ := Option.map_eq_some_iff.1 first
  have slot : b.name = Numeral.ofNat (Function.parameterSlots f.header) :=
    Slots.name_of_first run rfl (Item.isMark_of_pairs same) head unlabelled
  have count := countP_takesSlot sig.parameters
  rw [header_locateFunction] at printed
  rw [Signature.parameterSlots_eq front matched printed] at slot
  have all : (∀ p ∈ sig.parameters, p.isMistaken = false) ↔
      sig.parameters.countP Parameter.isMistaken = 0 := by
    simp [List.countP_eq_zero]
  rw [show (m'.locateBlock b).name = b.name from rfl, slot, all, ← count, Nat.add_sub_cancel]
  refine ⟨rfl, fun same => ?_, fun none => by rw [none, Nat.add_zero]⟩
  have equal := Numeral.ofNat_injective same
  omega

/-- The headers of all functions of a module, with the lines and the names of their blocks. -/
def outline (m : Module) : List (List Text × List (List Text × Text)) :=
  m.funcs.map fun f => (f.header, f.blocks.map fun b => (b.lines, b.name))

/-- A module with one function of one block. -/
theorem exists_of_outline {text header line slot : Text}
    (only : (ofText text).map outline = .ok [([header], [([line], slot)])]) :
    ∃ m f b, ofText text = .ok m ∧ f ∈ m.funcs ∧ f.header = [header] ∧ f.blocks.head? = some b ∧
      b.lines = [line] ∧ b.name = slot := by
  obtain ⟨m, read, only⟩ := map_eq_ok.1 only
  obtain ⟨f, rest, funcs, own, -⟩ := List.map_eq_cons_iff.1 only
  obtain ⟨header, blocks⟩ := Prod.mk.inj own
  obtain ⟨b, rest, blocks, own, -⟩ := List.map_eq_cons_iff.1 blocks
  obtain ⟨lines, name⟩ := Prod.mk.inj own
  exact ⟨m, f, b, read, funcs ▸ List.mem_cons_self, header, by rw [blocks]; rfl, lines, name⟩

/-- The type of integers of 32 bits. -/
def integer : Word := ⟨'i', "32", by decide⟩

/-- A signature with a parameter of each kind: a pointer with attributes and no name, named and
numbered ones, pointers to functions, a name in quotes with a comma, and dots. -/
def mixedSignature : Signature where
  front := "define i32 "
  name := .bare "f" (by decide)
  parameters :=
    [{ type := .pointer (.named (.bare "S" (by decide)))
       attributes := [.call ⟨'b', "yval", by decide⟩ "%S"
          ⟨(Field.of_plain (by decide)).toLevel, .of_plain (by decide)⟩,
          .number ⟨'a', "lign", by decide⟩ 8] },
      { type := .word integer, name? := some (.bare "n" (by decide)) },
      { type := .pointer (.function (.word integer) [.word integer] true)
        name? := some (.bare "0" (by decide)) },
      { type := .struct [.word integer, .vector 4 (.word integer)]
        name? := some (.quoted (Utf8.encode "a,b")) },
      { type := .array 2 (.named (.bare "T" (by decide))) }]
  variadic := true
  rest := " \x7b"

/-- The header that is printed from it. -/
def mixedHeader : Text :=
  "define i32 @f(%S* byval(%S) align 8, i32 %n, i32 (i32, ...)* %0, " ++
    "\x7b i32, <4 x i32> \x7d %\"a,b\", [2 x %T], ...) \x7b"

theorem entry_slot_iff_mixed : mixedSignature.text = mixedHeader ∧
    ∃ m f b, ofText (mixedHeader ++ "\n  ret i32 0\n\x7d\n".toList) = .ok m ∧ f ∈ m.funcs ∧
      f.header = [mixedHeader] ∧ f.blocks.head? = some b ∧ b.name = ['3'] := by
  have printed : mixedSignature.text = mixedHeader := by decide
  obtain ⟨m, f, b, read, member, header, first, lines, -⟩ :=
    @exists_of_outline (mixedHeader ++ "\n  ret i32 0\n\x7d\n".toList) mixedHeader "  ret i32 0" "3"
      (by decide +kernel)
  have unlabelled : ¬ b.Labelled := by
    rw [Block.Labelled, lines]
    decide
  obtain ⟨slot, -⟩ := @entry_slot_iff _ _ m read f member mixedSignature
    (by rw [header, printed]; decide) (by decide) (by decide) b first unlabelled
  refine ⟨printed, m, f, b, read, member, header, first, slot.trans (by decide)⟩

/-- A signature with a structure for a parameter, which has no name. -/
def bareSignature : Signature where
  front := "define void "
  name := .bare "f" (by decide)
  parameters := [{ type := .named (.bare "S" (by decide)) }]
  rest := " \x7b"

/-- The name of the type is taken for that of the parameter, so the first block gets the number of
the parameter. -/
theorem entry_slot_mistaken :
    (ofText "define void @f(%S) \x7b\n  ret void\n\x7d\n").map blockNames = .ok [['0']] ∧
      ¬ ∀ (text name : Text) (m : Module), ofText text name = .ok m → ∀ f ∈ m.funcs,
        ∀ sig : Signature, Function.headerText f.header = sig.text → '@' ∉ sig.front →
          Matched 0 sig.list → ∀ b, f.blocks.head? = some b → ¬ b.Labelled →
            b.name = Numeral.ofNat (sig.parameters.countP Parameter.isUnnamed) := by
  refine ⟨by decide +kernel, fun all => ?_⟩
  obtain ⟨m, f, b, read, member, header, first, lines, name⟩ :=
    @exists_of_outline "define void @f(%S) \x7b\n  ret void\n\x7d\n" "define void @f(%S) \x7b"
      "  ret void" "0" (by decide +kernel)
  have unlabelled : ¬ b.Labelled := by
    rw [Block.Labelled, lines]
    decide
  have slot := all _ _ m read f member bareSignature (by rw [header]; decide) (by decide)
    (by decide) b first unlabelled
  rw [name] at slot
  exact absurd slot (by decide)

end Module

end FlowReport.Assembly
