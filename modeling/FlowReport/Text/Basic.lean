import FlowReport.Text.CharClass

/-!
# Text

A text is a list of characters, so that every scanner in the library is a recursion on it and
every statement about one is an induction. Literals are ordinary strings and turn into texts
where a text is expected.
-/

namespace FlowReport

/-- A text, character by character. -/
abbrev Text := List Char

instance : Coe String Text := ⟨String.toList⟩

namespace Text

/-- The text as a string, for output. -/
def toStr (s : Text) : String := String.ofList s

/-- The text without the blanks at its front. -/
def dropBlank (s : Text) : Text := s.dropWhile isBlank

/-- The text without the blanks at its end. -/
def dropBlankEnd (s : Text) : Text := (s.reverse.dropWhile isBlank).reverse

/-- The text without the blanks at either end. -/
def trim (s : Text) : Text := dropBlankEnd (dropBlank s)

/-- The rest of the text after `front`, if it starts so. -/
def dropPrefix? : (front s : Text) → Option Text
  | [], s => some s
  | _ :: _, [] => none
  | f :: front, c :: s => if f = c then dropPrefix? front s else none

theorem append_of_dropPrefix? {front s rest : Text} (h : dropPrefix? front s = some rest) :
    front ++ rest = s := by
  fun_induction dropPrefix? front s <;> simp_all

theorem length_of_dropPrefix? {front s rest : Text} (h : dropPrefix? front s = some rest) :
    front.length + rest.length = s.length := by
  rw [← append_of_dropPrefix? h, List.length_append]

/-- The text before and the text from the first occurrence of `part`. -/
def cutBefore? (part : Text) : Text → Option (Text × Text)
  | [] => if part = [] then some ([], []) else none
  | c :: s =>
    if part.isPrefixOf (c :: s) then some ([], c :: s)
    else (cutBefore? part s).map fun (before, found) => (c :: before, found)

theorem append_of_cutBefore? {part s before found : Text}
    (h : cutBefore? part s = some (before, found)) : before ++ found = s := by
  fun_induction cutBefore? part s generalizing before with
  | case1 => simp_all
  | case2 => simp_all
  | case3 c s => simp_all
  | case4 c s _ ih =>
    obtain ⟨⟨b, f⟩, hb, hf⟩ := Option.map_eq_some_iff.1 h
    simp only [Prod.mk.injEq] at hf
    obtain ⟨rfl, rfl⟩ := hf
    simp [ih hb]

/-- `part` occurs in the text. -/
def contains (part s : Text) : Bool := (cutBefore? part s).isSome

/-- The text before and the text after the first `mark`. -/
def cutAt? (mark : Char) : Text → Option (Text × Text)
  | [] => none
  | c :: s =>
    if c = mark then some ([], s)
    else (cutAt? mark s).map fun (before, after) => (c :: before, after)

theorem append_of_cutAt? {mark : Char} {s before after : Text}
    (h : cutAt? mark s = some (before, after)) : before ++ mark :: after = s := by
  fun_induction cutAt? mark s generalizing before with
  | case1 => simp at h
  | case2 => simp_all
  | case3 c s _ ih =>
    obtain ⟨⟨b, a⟩, hb, ha⟩ := Option.map_eq_some_iff.1 h
    simp only [Prod.mk.injEq] at ha
    obtain ⟨rfl, rfl⟩ := ha
    simp [ih hb]

/-- The pieces between the occurrences of `mark`; there is always at least one. -/
def split (mark : Char) : Text → List Text
  | [] => [[]]
  | c :: s =>
    if c = mark then [] :: split mark s
    else match split mark s with
      | [] => [[c]]
      | piece :: pieces => (c :: piece) :: pieces

/-- The pieces with `mark` between neighbours. -/
def join (mark : Text) : List Text → Text
  | [] => []
  | [piece] => piece
  | piece :: next :: pieces => piece ++ mark ++ join mark (next :: pieces)

theorem split_ne_nil (mark : Char) (s : Text) : split mark s ≠ [] := by
  fun_induction split mark s <;> simp

theorem join_cons_cons (mark : Text) (c : Char) (piece : Text) (pieces : List Text) :
    join mark ((c :: piece) :: pieces) = c :: join mark (piece :: pieces) := by
  cases pieces <;> simp [join]

theorem join_split (mark : Char) (s : Text) : join [mark] (split mark s) = s := by
  fun_induction split mark s with
  | case1 => rfl
  | case2 s ih =>
    obtain ⟨piece, pieces, h⟩ := List.exists_cons_of_ne_nil (split_ne_nil mark s)
    rw [h] at ih ⊢
    simp [join, ih]
  | case3 c s _ hs => exact absurd hs (split_ne_nil mark s)
  | case4 c s _ piece pieces hs ih =>
    rw [hs] at ih
    rw [join_cons_cons, ih]

/-- Every occurrence of `part` replaced by `new`, found from the left; `skip` characters of an
occurrence are still to be passed over. -/
def replaceFrom (part new : Text) : Nat → Text → Text
  | _, [] => []
  | skip + 1, _ :: s => replaceFrom part new skip s
  | 0, c :: s =>
    if part.isPrefixOf (c :: s) then new ++ replaceFrom part new (part.length - 1) s
    else c :: replaceFrom part new 0 s

/-- Every occurrence of `part` replaced by `new`, found from the left. -/
def replace (part new s : Text) : Text := replaceFrom part new 0 s

/-- The order of texts by their code points; a text precedes those that it begins. -/
def precedes : Text → Text → Bool
  | [], _ => true
  | _ :: _, [] => false
  | a :: s, b :: t => a.toNat < b.toNat || (a == b && precedes s t)

/-- An ASCII capital letter as the small one; every other character as it is. -/
def lowerAscii (s : Text) : Text := s.map Char.toLower

end Text

end FlowReport
