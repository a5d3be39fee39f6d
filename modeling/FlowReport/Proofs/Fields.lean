import FlowReport.Assembly.Brackets
import FlowReport.Proofs.Scan
import Mathlib.Data.List.Forall2

/-!
# Fields between commas

A list is cut at the commas outside of strings and brackets. A text is `Level` if it leaves the
nesting around it as it is, and a `Field` if no comma in it stands outside of its own strings and
brackets; so fields that are joined by commas are what the list is cut into. Parentheses are also
counted wherever they stand, in strings too: a text whose parentheses pair up in this sense is
`Matched`, and the closing parenthesis behind it is found if and only if it is.
-/

namespace FlowReport.Assembly

namespace Nesting

/-- The nesting behind a text. -/
def behind (n : Nesting) (s : Text) : Nesting := s.foldl step n

/-- No comma of the text stands outside of everything. -/
def Uncut : Nesting → Text → Prop
  | _, [] => True
  | n, c :: s => ¬ (c = ',' ∧ n.step c = .outside) ∧ Uncut (n.step c) s

instance decidableUncut : (n : Nesting) → (s : Text) → Decidable (Uncut n s)
  | _, [] => inferInstanceAs (Decidable True)
  | n, c :: s =>
    have := decidableUncut (n.step c) s
    inferInstanceAs (Decidable (_ ∧ Uncut (n.step c) s))

variable {n : Nesting} {s t : Text}

theorem behind_cons {c : Char} : n.behind (c :: s) = (n.step c).behind s := rfl

theorem behind_append : n.behind (s ++ t) = (n.behind s).behind t := List.foldl_append

theorem uncut_append : Uncut n (s ++ t) ↔ Uncut n s ∧ Uncut (n.behind s) t := by
  induction s generalizing n with
  | nil => simp [Uncut, behind]
  | cons c s ih =>
    rw [List.cons_append, Uncut, Uncut, ih, and_assoc]
    rfl

/-- A character that is no quote and no bracket changes nothing. -/
theorem step_plain {c : Char} (plain : c ∉ ['"', '{', '[', '(', '}', ']', ')']) :
    n.step c = n := by
  simp only [List.mem_cons, List.not_mem_nil, or_false, not_or] at plain
  unfold step
  split
  · rename_i quote
    exact absurd quote plain.1
  split
  · rfl
  · simp [plain]

end Nesting

open Nesting (Uncut)

/-- A text without a comma outside is part of one piece. -/
theorem rawPieces_append {n : Nesting} {s : Text} (uncut : Uncut n s) (t : Text) :
    rawPieces n (s ++ t) = (rawPieces (n.behind s) t).modifyHead (s ++ ·) := by
  induction s generalizing n with
  | nil =>
    show rawPieces n t = (rawPieces n t).modifyHead id
    rw [List.modifyHead_id]
    rfl
  | cons c s ih =>
    obtain ⟨inside, uncut⟩ := uncut
    rw [List.cons_append, rawPieces, if_neg inside, ih uncut, Nesting.behind_cons]
    have nonempty : rawPieces ((n.step c).behind s) t ≠ [] := by
      fun_cases rawPieces ((n.step c).behind s) t <;> simp_all [rawPieces]
    obtain ⟨piece, pieces, same⟩ := List.exists_cons_of_ne_nil nonempty
    rw [same]
    rfl

/-- A text that leaves the nesting around it as it is: its strings are closed, and its brackets pair
up. Inside of brackets it may have any commas. -/
structure Level (s : Text) : Prop where
  behind : ∀ depth, Nesting.behind ⟨depth, false⟩ s = ⟨depth, false⟩
  inner : ∀ depth, Uncut ⟨depth + 1, false⟩ s

namespace Level

variable {s t : Text}

theorem nil : Level [] := ⟨fun _ => rfl, fun _ => trivial⟩

theorem append (hs : Level s) (ht : Level t) : Level (s ++ t) where
  behind depth := by rw [Nesting.behind_append, hs.behind, ht.behind]
  inner depth := Nesting.uncut_append.2 ⟨hs.inner depth, by
    rw [hs.behind]
    exact ht.inner depth⟩

theorem plain {c : Char} (plain : c ∉ ['"', '{', '[', '(', '}', ']', ')']) : Level [c] where
  behind depth := Nesting.step_plain plain
  inner depth := by
    refine ⟨fun ⟨_, outside⟩ => ?_, trivial⟩
    rw [Nesting.step_plain plain] at outside
    cases outside

end Level

/-- A level text without a comma outside of its own strings and brackets. -/
structure Field (s : Text) : Prop extends Level s where
  outer : Uncut .outside s

namespace Field

variable {s t : Text}

theorem nil : Field [] := ⟨.nil, trivial⟩

theorem append (hs : Field s) (ht : Field t) : Field (s ++ t) where
  toLevel := hs.toLevel.append ht.toLevel
  outer := Nesting.uncut_append.2 ⟨hs.outer, by
    rw [show Nesting.outside.behind s = .outside from hs.behind 0]
    exact ht.outer⟩

theorem plain {c : Char} (plain : c ∉ ['"', '{', '[', '(', '}', ']', ')', ',']) : Field [c] where
  toLevel := .plain fun member => plain (List.mem_append_left [','] member)
  outer := by
    refine ⟨fun ⟨comma, _⟩ => plain ?_, trivial⟩
    simp [comma]

/-- A text of plain characters is a field. -/
theorem of_plain (each : ∀ c ∈ s, c ∉ ['"', '{', '[', '(', '}', ']', ')', ',']) : Field s := by
  induction s with
  | nil => exact nil
  | cons c s ih =>
    obtain ⟨own, others⟩ := List.forall_mem_cons.1 each
    exact (plain own).append (ih others)

theorem cons {c : Char} (own : c ∉ ['"', '{', '[', '(', '}', ']', ')', ',']) (hs : Field s) :
    Field (c :: s) := (plain own).append hs

/-- What stands between brackets need only be level. -/
theorem bracketed {opening closing : Char} (opens : opening ∈ ['{', '[', '('])
    (closes : closing ∈ ['}', ']', ')']) (level : Level s) :
    Field (opening :: (s ++ [closing])) := by
  have up : ∀ depth, Nesting.step ⟨depth, false⟩ opening = ⟨depth + 1, false⟩ := by
    intro depth
    simp only [List.mem_cons, List.not_mem_nil, or_false] at opens
    rcases opens with rfl | rfl | rfl <;> rfl
  have down : ∀ depth, Nesting.step ⟨depth + 1, false⟩ closing = ⟨depth, false⟩ := by
    intro depth
    simp only [List.mem_cons, List.not_mem_nil, or_false] at closes
    rcases closes with rfl | rfl | rfl <;> rfl
  have noComma : opening ≠ ',' ∧ closing ≠ ',' := by
    constructor
    · rintro rfl
      exact absurd opens (by decide)
    · rintro rfl
      exact absurd closes (by decide)
  have uncut : ∀ depth, Uncut ⟨depth, false⟩ (opening :: (s ++ [closing])) := by
    intro depth
    refine ⟨fun comma => noComma.1 comma.1, Nesting.uncut_append.2 ⟨?_, ?_⟩⟩
    · rw [up]
      exact level.inner depth
    · exact ⟨fun comma => noComma.2 comma.1, trivial⟩
  refine ⟨⟨fun depth => ?_, fun depth => uncut (depth + 1)⟩, uncut 0⟩
  show ((Nesting.step ⟨depth, false⟩ opening).behind (s ++ [closing])) = _
  rw [up, Nesting.behind_append, level.behind]
  exact down depth

end Field

namespace Nesting

/-- In a string nothing but a quote changes the nesting, and no comma is outside. -/
theorem in_string {s : Text} (unquoted : '"' ∉ s) (depth : Nat) :
    behind ⟨depth, true⟩ s = ⟨depth, true⟩ ∧ Uncut ⟨depth, true⟩ s := by
  induction s with
  | nil => exact ⟨rfl, trivial⟩
  | cons c s ih =>
    rw [List.mem_cons, not_or] at unquoted
    have stays : step ⟨depth, true⟩ c = ⟨depth, true⟩ := by
      rw [step, if_neg (Ne.symm unquoted.1)]
      rfl
    obtain ⟨same, uncut⟩ := ih unquoted.2
    refine ⟨?_, ⟨fun outside => ?_, ?_⟩⟩
    · show (step ⟨depth, true⟩ c).behind s = _
      rw [stays, same]
    · rw [stays] at outside
      cases outside.2
    · rw [stays]
      exact uncut

/-- A string that is still open has no comma outside. -/
theorem uncut_open {s : Text} (unquoted : '"' ∉ s) : Uncut outside ('"' :: s) :=
  ⟨fun outside => absurd outside.1 (by decide), (in_string unquoted 0).2⟩

end Nesting

/-- A string is a field. -/
theorem Field.quoted {s : Text} (unquoted : '"' ∉ s) : Field ('"' :: (s ++ ['"'])) := by
  have uncut : ∀ depth, Uncut ⟨depth, false⟩ ('"' :: (s ++ ['"'])) := by
    intro depth
    refine ⟨fun comma => absurd comma.1 (by decide), Nesting.uncut_append.2 ⟨?_, ?_⟩⟩
    · exact (Nesting.in_string unquoted depth).2
    · exact ⟨fun comma => absurd comma.1 (by decide), trivial⟩
  refine ⟨⟨fun depth => ?_, fun depth => uncut (depth + 1)⟩, uncut 0⟩
  show Nesting.behind ⟨depth, true⟩ (s ++ ['"']) = _
  rw [Nesting.behind_append, (Nesting.in_string unquoted depth).1]
  rfl

/-! ## Fields that are joined -/

/-- Fields joined by commas are cut into themselves; of the last one it only matters that nothing cuts
it. -/
theorem rawPieces_join {pieces : List Text} {last : Text} (fields : ∀ p ∈ pieces, Field p)
    (uncut : Uncut .outside last) :
    rawPieces .outside (Text.join [','] (pieces ++ [last])) = pieces ++ [last] := by
  induction pieces with
  | nil =>
    have alone := rawPieces_append uncut []
    rw [List.append_nil] at alone
    rw [List.nil_append, Text.join, alone]
    exact congrArg (· :: []) (List.append_nil last)
  | cons p pieces ih =>
    obtain ⟨own, others⟩ := List.forall_mem_cons.1 fields
    obtain ⟨next, rest, same⟩ := List.exists_cons_of_ne_nil
      (List.append_ne_nil_of_right_ne_nil pieces (List.cons_ne_nil last []))
    have level : Nesting.outside.behind p = .outside := own.behind 0
    have cut : ∀ s, rawPieces .outside (',' :: s) = [] :: rawPieces .outside s := by
      intro s
      rw [rawPieces, if_pos ⟨rfl, rfl⟩]
    rw [List.cons_append, same, Text.join, ← same, List.append_assoc, List.singleton_append,
      rawPieces_append own.outer, level, cut, ih others]
    exact congrArg (· :: _) (List.append_nil p)

/-- Nothing else cuts the fields. -/
theorem rawPieces_fields {pieces : List Text} (nonempty : pieces ≠ [])
    (fields : ∀ p ∈ pieces, Field p) : rawPieces .outside (Text.join [','] pieces) = pieces := by
  rw [← List.dropLast_concat_getLast nonempty] at fields ⊢
  obtain ⟨front, last⟩ := List.forall_mem_append.1 fields
  exact rawPieces_join front (last _ List.mem_cons_self).outer

/-- Blanks around a field are part of it. -/
theorem Field.padded {s t : Text} (field : Field s) (padded : Text.Padded s t) : Field t := by
  obtain ⟨left, right, blank, rfl⟩ := padded
  have marks : ∀ c ∈ ['"', '{', '[', '(', '}', ']', ')', ','], isBlank c = false := by decide
  have plain : ∀ c ∈ left ++ right, c ∉ ['"', '{', '[', '(', '}', ']', ')', ','] := by
    intro c member mark
    have both := blank c member
    rw [marks c mark] at both
    cases both
  obtain ⟨before, behind⟩ := List.forall_mem_append.1 plain
  exact (of_plain before).append (field.append (of_plain behind))

/-- **Trimmed fields with blanks around them, joined by commas, are what the list is split into.** -/
theorem splitFields_padded {values pieces : List Text}
    (padded : List.Forall₂ Text.Padded values pieces) (fields : ∀ v ∈ values, Field v)
    (trimmed : ∀ v ∈ values, v ≠ [] ∧ v.trim = v) :
    splitFields (Text.join [','] pieces) = values := by
  have each : pieces.map Text.trim = values ∧ ∀ p ∈ pieces, Field p := by
    induction padded with
    | nil => exact ⟨rfl, by simp⟩
    | cons head _ ih =>
      obtain ⟨field, fields⟩ := List.forall_mem_cons.1 fields
      obtain ⟨own, others⟩ := List.forall_mem_cons.1 trimmed
      obtain ⟨trims, cuts⟩ := ih fields others
      exact ⟨by rw [List.map_cons, head.trim, own.2, trims],
        List.forall_mem_cons.2 ⟨field.padded head, cuts⟩⟩
  obtain ⟨trims, cuts⟩ := each
  cases padded with
  | nil => rfl
  | cons =>
    rw [splitFields, rawPieces_fields (List.cons_ne_nil _ _) cuts, trims, List.filter_eq_self]
    exact fun v member => decide_eq_true (trimmed v member).1

/-- A blank behind each comma stands in front of the next piece. -/
theorem exists_padded_join (ps : List Text) :
    ∃ pieces, List.Forall₂ Text.Padded ps pieces ∧ Text.join ", " ps = Text.join [','] pieces := by
  cases ps with
  | nil => exact ⟨[], .nil, rfl⟩
  | cons p ps =>
    have blank : ∀ q : Text, Text.Padded q (' ' :: q) := fun q => ⟨[' '], [], by decide, by simp⟩
    refine ⟨p :: ps.map (' ' :: ·), .cons (.refl p) ?_, ?_⟩
    · exact List.forall₂_map_right_iff.2 (List.forall₂_same.2 fun q _ => blank q)
    · induction ps generalizing p with
      | nil => rfl
      | cons q ps ih =>
        rw [Text.join, ih, List.map_cons, Text.join, Text.join_cons_cons, List.append_assoc,
          List.append_assoc]
        rfl

/-- Trimmed fields joined by commas and blanks are what the list is split into. -/
theorem splitFields_join {ps : List Text} (fields : ∀ p ∈ ps, Field p)
    (trimmed : ∀ p ∈ ps, p ≠ [] ∧ p.trim = p) : splitFields (Text.join ", " ps) = ps := by
  obtain ⟨pieces, padded, same⟩ := exists_padded_join ps
  rw [same, splitFields_padded padded fields trimmed]

/-! ## Parentheses -/

/-- The parentheses of the text, wherever they stand, close each other and `depth` more before it. -/
def Matched : (depth : Nat) → Text → Prop
  | depth, [] => depth = 0
  | depth, c :: s =>
    if c = '(' then Matched (depth + 1) s
    else if c = ')' then 0 < depth ∧ Matched (depth - 1) s
    else Matched depth s

instance decidableMatched : (depth : Nat) → (s : Text) → Decidable (Matched depth s)
  | depth, [] => inferInstanceAs (Decidable (depth = 0))
  | depth, c :: s =>
    have := decidableMatched (depth + 1) s
    have := decidableMatched (depth - 1) s
    have := decidableMatched depth s
    inferInstanceAs (Decidable (if c = '(' then Matched (depth + 1) s
      else if c = ')' then 0 < depth ∧ Matched (depth - 1) s else Matched depth s))

section Enclosed

variable (depth : Nat) (s : Text)

theorem enclosed?_opening :
    enclosed? depth ('(' :: s) = (enclosed? (depth + 1) s).map ('(' :: ·) := by
  rw [enclosed?.eq_def]
  rfl

theorem enclosed?_closing : enclosed? (depth + 1) (')' :: s) = (enclosed? depth s).map (')' :: ·) := by
  rw [enclosed?.eq_def]
  rfl

theorem enclosed?_other {c : Char} (opening : c ≠ '(') (closing : c ≠ ')') :
    enclosed? depth (c :: s) = (enclosed? depth s).map (c :: ·) := by
  rw [enclosed?.eq_def]
  simp only [if_neg opening, if_neg closing]

end Enclosed

/-- The parenthesis behind a text is the one that closes it if and only if those of the text are
matched. -/
theorem enclosed?_append_iff {depth : Nat} {s : Text} (rest : Text) :
    enclosed? depth (s ++ ')' :: rest) = some s ↔ Matched depth s := by
  induction s generalizing depth with
  | nil =>
    cases depth with
    | zero => exact ⟨fun _ => rfl, fun _ => rfl⟩
    | succ depth => simp [enclosed?_closing, Matched]
  | cons c s ih =>
    by_cases opening : c = '('
    · simp [opening, enclosed?_opening, Matched, ih]
    by_cases closing : c = ')'
    · cases depth with
      | zero => simp [closing, enclosed?, Matched]
      | succ depth => simp [closing, enclosed?_closing, Matched, ih]
    · simp [enclosed?_other _ _ opening closing, Matched, opening, closing, ih]

/-- What is enclosed ends at a closing parenthesis. -/
theorem append_of_enclosed? {depth : Nat} {s front : Text} (h : enclosed? depth s = some front) :
    ∃ back, s = front ++ ')' :: back := by
  induction s generalizing depth front with
  | nil => cases h
  | cons c s ih =>
    have later : ∀ {depth}, (enclosed? depth s).map (c :: ·) = some front →
        ∃ back, c :: s = front ++ ')' :: back := by
      intro depth h
      obtain ⟨inner, found, rfl⟩ := Option.map_eq_some_iff.1 h
      obtain ⟨back, rfl⟩ := ih found
      exact ⟨back, rfl⟩
    by_cases opening : c = '('
    · subst opening
      exact later (enclosed?_opening depth s ▸ h)
    by_cases closing : c = ')'
    · subst closing
      cases depth with
      | zero =>
        cases h
        exact ⟨s, rfl⟩
      | succ depth => exact later (enclosed?_closing depth s ▸ h)
    · exact later (enclosed?_other depth s opening closing ▸ h)

/-- Only the parentheses of a text matter. -/
def isParen (c : Char) : Bool := c = '(' || c = ')'

theorem matched_filter {depth : Nat} {s : Text} :
    Matched depth (s.filter isParen) ↔ Matched depth s := by
  induction s generalizing depth with
  | nil => rfl
  | cons c s ih =>
    by_cases paren : isParen c = true
    · rw [List.filter_cons_of_pos paren, Matched, Matched, ih, ih, ih]
    · have other : c ≠ '(' ∧ c ≠ ')' := by simpa [isParen] using paren
      rw [List.filter_cons_of_neg paren, Matched, if_neg other.1, if_neg other.2, ih]

end FlowReport.Assembly
