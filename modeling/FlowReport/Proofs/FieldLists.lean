import FlowReport.Proofs.FileNodes
import FlowReport.Proofs.Tables
import Mathlib.Algebra.Group.Nat.Even

/-!
# Lists of fields

What a value has to heed to be read back from a list of fields. Its quotes come in pairs; outside of
its strings the brackets pair up and no comma stands outside of all brackets. This is said by counting
the brackets at the front of the text. Such values are what a list of them is split into, and a list
of keys and values is read as the table of them.
-/

namespace FlowReport.Assembly

/-! ## Counting brackets -/

/-- The text without its strings; `inString` says whether it begins in one. -/
def exposed : (inString : Bool) → Text → Text
  | _, [] => []
  | inString, c :: s =>
    if c = '"' then exposed (!inString) s
    else if inString then exposed inString s
    else c :: exposed inString s

theorem exposed_quote (inString : Bool) (s : Text) :
    exposed inString ('"' :: s) = exposed (!inString) s := rfl

theorem exposed_inside {c : Char} (quote : c ≠ '"') (s : Text) :
    exposed true (c :: s) = exposed true s := by
  rw [exposed, if_neg quote, if_pos rfl]

theorem exposed_outside {c : Char} (quote : c ≠ '"') (s : Text) :
    exposed false (c :: s) = c :: exposed false s := by
  rw [exposed, if_neg quote, if_neg Bool.false_ne_true]

/-- The number of opening brackets. -/
def openings (s : Text) : Nat := s.countP (· ∈ ['{', '[', '('])

/-- The number of closing brackets. -/
def closings (s : Text) : Nat := s.countP (· ∈ ['}', ']', ')'])

/-- What the value of a field heeds. -/
structure IsValue (s : Text) : Prop where
  trimmed : s.trim = s
  quotes : Even (s.count '"')
  /-- No bracket closes before one is open. -/
  above : ∀ front ∈ (exposed false s).inits, closings front ≤ openings front
  /-- All brackets are closed. -/
  level : closings (exposed false s) = openings (exposed false s)
  /-- Where a comma stands, a bracket is open. -/
  inner : ∀ front ∈ (exposed false s).inits, front.getLast? = some ',' →
    closings front < openings front

instance (s : Text) : Decidable (IsValue s) :=
  decidable_of_iff (s.trim = s ∧ Even (s.count '"') ∧
      (∀ front ∈ (exposed false s).inits, closings front ≤ openings front) ∧
      closings (exposed false s) = openings (exposed false s) ∧
      ∀ front ∈ (exposed false s).inits, front.getLast? = some ',' →
        closings front < openings front)
    ⟨fun ⟨trimmed, quotes, above, level, inner⟩ => ⟨trimmed, quotes, above, level, inner⟩,
      fun ⟨trimmed, quotes, above, level, inner⟩ => ⟨trimmed, quotes, above, level, inner⟩⟩

/-- Behind `depth` open brackets no bracket of the text closes before one is open. -/
def StaysAbove (depth : Nat) (s : Text) : Prop :=
  ∀ front ∈ s.inits, closings front ≤ depth + openings front

/-- Behind `depth` open brackets no comma of the text stands outside of all brackets. -/
def KeepsInside (depth : Nat) (s : Text) : Prop :=
  ∀ front ∈ s.inits, front.getLast? = some ',' → closings front < depth + openings front

section Counts

variable {depth : Nat} {c : Char} {s : Text}

theorem openings_cons (c : Char) (s : Text) : openings (c :: s) = openings [c] + openings s := by
  show openings ([c] ++ s) = _
  rw [openings, List.countP_append]
  rfl

theorem closings_cons (c : Char) (s : Text) : closings (c :: s) = closings [c] + closings s := by
  show closings ([c] ++ s) = _
  rw [closings, List.countP_append]
  rfl

theorem StaysAbove.behind (above : StaysAbove depth (c :: s)) :
    closings [c] ≤ depth + openings [c] ∧
      StaysAbove (depth + openings [c] - closings [c]) s := by
  rw [StaysAbove, List.inits_cons, List.forall_mem_cons, List.forall_mem_map] at above
  have first := above.2 [] ((List.mem_inits _ _).2 List.nil_prefix)
  refine ⟨first, fun front member => ?_⟩
  have both := above.2 front member
  rw [openings_cons, closings_cons] at both
  omega

theorem KeepsInside.behind (first : closings [c] ≤ depth + openings [c])
    (inside : KeepsInside depth (c :: s)) :
    (c = ',' → 0 < depth) ∧ KeepsInside (depth + openings [c] - closings [c]) s := by
  rw [KeepsInside, List.inits_cons, List.forall_mem_cons, List.forall_mem_map] at inside
  constructor
  · rintro rfl
    exact inside.2 [] ((List.mem_inits _ _).2 List.nil_prefix) rfl
  · intro front member last
    have both := inside.2 front member (by rw [List.getLast?_cons, last]; rfl)
    rw [openings_cons, closings_cons] at both
    omega

end Counts

namespace Nesting

/-- A character outside of strings counts as the bracket that it is. -/
theorem step_exposed {depth : Nat} {c : Char} (quote : c ≠ '"') :
    step ⟨depth, false⟩ c = ⟨depth + openings [c] - closings [c], false⟩ := by
  by_cases bracket : c ∈ ['{', '[', '(', '}', ']', ')']
  · simp only [List.mem_cons, List.not_mem_nil, or_false] at bracket
    rcases bracket with rfl | rfl | rfl | rfl | rfl | rfl <;> rfl
  · have plain : c ∉ ['"', '{', '[', '(', '}', ']', ')'] := by
      rw [List.mem_cons, not_or]
      exact ⟨quote, bracket⟩
    simp only [List.mem_cons, List.not_mem_nil, or_false, not_or] at bracket
    rw [step_plain plain]
    simp [openings, closings, bracket]

/-- Inside of a string only a quote counts. -/
theorem step_inside {depth : Nat} {c : Char} (quote : c ≠ '"') :
    step ⟨depth, true⟩ c = ⟨depth, true⟩ := by
  rw [step, if_neg quote]
  rfl

/-- How deep a text leads, and whether a comma in it cuts, is told by the brackets that are counted
outside of its strings. -/
theorem behind_exposed {s : Text} {depth : Nat} {inString : Bool}
    (above : StaysAbove depth (exposed inString s))
    (quotes : Even (s.count '"' + inString.toNat)) :
    behind ⟨depth, inString⟩ s =
        ⟨depth + openings (exposed inString s) - closings (exposed inString s), false⟩ ∧
      (KeepsInside depth (exposed inString s) → Uncut ⟨depth, inString⟩ s) := by
  induction s generalizing depth inString with
  | nil =>
    cases inString with
    | false => exact ⟨rfl, fun _ => trivial⟩
    | true => exact absurd quotes (by decide)
  | cons c s ih =>
    rw [behind_cons, Uncut]
    by_cases quote : c = '"'
    · subst quote
      have flips : step ⟨depth, inString⟩ '"' = ⟨depth, !inString⟩ := rfl
      have even : Even (s.count '"' + (!inString).toNat) := by
        rw [List.count_cons_self] at quotes
        cases inString <;> simp_all [Nat.even_add_one]
      rw [exposed_quote] at above ⊢
      rw [flips]
      obtain ⟨same, uncut⟩ := ih above even
      exact ⟨same, fun inside => ⟨fun comma => absurd comma.1 (by decide), uncut inside⟩⟩
    rw [List.count_cons_of_ne quote] at quotes
    cases inString with
    | true =>
      rw [exposed_inside quote] at above ⊢
      rw [step_inside quote]
      obtain ⟨same, uncut⟩ := ih above quotes
      refine ⟨same, fun inside => ⟨fun comma => ?_, uncut inside⟩⟩
      cases comma.2
    | false =>
      rw [exposed_outside quote] at above ⊢
      rw [step_exposed quote]
      obtain ⟨first, above⟩ := above.behind
      obtain ⟨same, uncut⟩ := ih above quotes
      refine ⟨?_, fun inside => ?_⟩
      · rw [same, openings_cons c (exposed false s), closings_cons c (exposed false s)]
        congr 1
        omega
      · obtain ⟨deep, inside⟩ := inside.behind first
        refine ⟨?_, uncut inside⟩
        rintro ⟨rfl, outside⟩
        cases outside
        exact absurd (deep rfl) (by decide)

end Nesting

/-- Values are fields. -/
theorem IsValue.field {s : Text} (value : IsValue s) : Field s := by
  have above : ∀ depth, StaysAbove depth (exposed false s) := fun depth front member =>
    (value.above front member).trans (Nat.le_add_left _ _)
  have quotes : Even (s.count '"' + false.toNat) := value.quotes
  refine ⟨⟨fun depth => ?_, fun depth => ?_⟩, ?_⟩
  · rw [(Nesting.behind_exposed (above depth) quotes).1, value.level, Nat.add_sub_cancel]
  · refine (Nesting.behind_exposed (above (depth + 1)) quotes).2 fun front member _ => ?_
    have low := value.above front member
    omega
  · refine (Nesting.behind_exposed (above 0) quotes).2 fun front member last => ?_
    rw [Nat.zero_add]
    exact value.inner front member last

/-! ## Keys and values -/

/-- What a key heeds: it is not empty, and it has no blank, no mark and no colon. An identifier is
one. -/
structure IsKey (key : Text) : Prop where
  nonempty : key ≠ []
  plain : ∀ c ∈ key, isBlank c = false ∧ c ∉ ['"', '{', '[', '(', '}', ']', ')', ',', ':']

instance (key : Text) : Decidable (IsKey key) :=
  decidable_of_iff
    (key ≠ [] ∧ ∀ c ∈ key, isBlank c = false ∧ c ∉ ['"', '{', '[', '(', '}', ']', ')', ',', ':'])
    ⟨fun ⟨nonempty, plain⟩ => ⟨nonempty, plain⟩, fun ⟨nonempty, plain⟩ => ⟨nonempty, plain⟩⟩

/-- A key and its value. -/
def keyed (pair : Text × Text) : Text := pair.1 ++ ':' :: ' ' :: pair.2

namespace IsKey

variable {key value : Text}

/-- A key and its value are what is read from them, with any blanks around. -/
theorem pair?_of_padded (own : IsKey key) (trimmed : value.trim = value) {piece : Text}
    (padded : Text.Padded (keyed (key, value)) piece) : pair? piece = some (key, value) := by
  have colon : ':' ∉ key := fun member => (own.plain _ member).2 (by decide)
  have nonblank : ∀ c ∈ key, isBlank c = false := fun c member => (own.plain c member).1
  have whole : (keyed (key, value)).trim = key ++ ':' :: Text.dropBlankEnd (' ' :: value) := by
    obtain ⟨c, rest, rfl⟩ := List.exists_cons_of_ne_nil own.nonempty
    rw [Text.trim, keyed, List.cons_append, Text.dropBlank_cons (nonblank c List.mem_cons_self),
      ← List.cons_append]
    exact Text.dropBlankEnd_append_cons (by decide) (c :: rest) (' ' :: value)
  have behind : Text.trim (' ' :: value) = value.trim :=
    Text.Padded.trim ⟨[' '], [], by decide, by simp⟩
  rw [pair?, padded.trim, whole, Text.cutAt?_append colon, Option.map_some]
  dsimp only
  rw [Text.trim_of_solid nonblank, Text.trim_dropBlankEnd, behind, trimmed]

theorem field (own : IsKey key) (held : Field value) : Field (keyed (key, value)) := by
  have plain : Field key := .of_plain fun c member mark =>
    (own.plain c member).2 (List.mem_append_left [':'] mark)
  exact plain.append (.cons (by decide) (.cons (by decide) held))

end IsKey

/-- **Splitting undoes joining.** A list of keys and values is read as the table of them, in their
order, if no key comes twice; and values that are not empty, joined by commas with any blanks around
these, are what their list is split into. -/
theorem splitting_undoes_joining :
    (∀ pairs : Table Text, pairs.Distinct → (∀ p ∈ pairs, IsKey p.1 ∧ IsValue p.2) →
      fieldsOf (Text.join ", " (pairs.map keyed)) = pairs) ∧
    (∀ values pieces : List Text, (∀ v ∈ values, v ≠ [] ∧ IsValue v) →
      List.Forall₂ Text.Padded values pieces →
      splitFields (Text.join [','] pieces) = values) := by
  constructor
  · intro pairs distinct each
    obtain ⟨pieces, padded, same⟩ := exists_padded_join (pairs.map keyed)
    rw [List.forall₂_map_left_iff] at padded
    have read : pieces.filterMap pair? = pairs ∧ ∀ piece ∈ pieces, Field piece := by
      clear distinct same
      induction padded with
      | nil => exact ⟨rfl, by simp⟩
      | cons head _ ih =>
        obtain ⟨⟨key, value⟩, others⟩ := List.forall_mem_cons.1 each
        obtain ⟨read, fields⟩ := ih others
        exact ⟨by rw [List.filterMap_cons_some (key.pair?_of_padded value.trimmed head), read],
          List.forall_mem_cons.2 ⟨(key.field value.field).padded head, fields⟩⟩
    rw [same, fieldsOf_eq]
    cases padded with
    | nil => rfl
    | cons =>
      rw [rawPieces_fields (List.cons_ne_nil _ _) read.2, read.1, Table.ofList_of_distinct distinct]
  · intro values pieces each padded
    exact splitFields_padded padded (fun v member => (each v member).2.field)
      fun v member => ⟨(each v member).1, (each v member).2.trimmed⟩

/-- Fields with commas, colons and unpaired brackets in strings, nested brackets, and nothing. -/
def mixedFields : Table Text := [
  ("filename", "\"a),\x7bb: c\""), ("elements", "!\x7b!1, !\x7bi32 2, [3 x i8]\x7d, (\"]\")\x7d"),
  ("flags", ""), ("line", "12")]

/-- The same values with other blanks around the commas. -/
def looseFields : List Text :=
  ["\"a),\x7bb: c\" ", "\t!\x7b!1, !\x7bi32 2, [3 x i8]\x7d, (\"]\")\x7d", "12"]

theorem splitting_undoes_joining_mixed :
    fieldsOf (Text.join ", " (mixedFields.map keyed)) = mixedFields ∧
      splitFields (Text.join [','] looseFields) =
        ["\"a),\x7bb: c\"".toList, "!\x7b!1, !\x7bi32 2, [3 x i8]\x7d, (\"]\")\x7d".toList,
          "12".toList] := by
  obtain ⟨table, list⟩ := splitting_undoes_joining
  have distinct : (mixedFields.map (·.1)).Nodup := by decide
  refine ⟨table mixedFields distinct (by decide), list _ looseFields (by decide) ?_⟩
  exact .cons ⟨[], [' '], by decide, rfl⟩ (.cons ⟨['\t'], [], by decide, rfl⟩ (.cons (.refl _) .nil))

end FlowReport.Assembly
