import FlowReport.Text.Quoted

/-!
# Wide texts

A document can name a surrogate by itself, which encodes no character. A wide text holds both,
characters and such surrogates. Every text is a wide text, and a wide text without surrogates is
a text.
-/

namespace FlowReport

/-- A character, or a surrogate by its place among the surrogates. -/
inductive CodePoint where
  | char (c : Char)
  | surrogate (k : Fin 0x800)
  deriving DecidableEq, Repr

/-- A text in which surrogates may stand by themselves. -/
abbrev WideText := List CodePoint

namespace CodePoint

/-- The first of the surrogates. -/
def surrogateStart : Nat := 0xd800

/-- The number of a code point. -/
def value : CodePoint → Nat
  | char c => c.toNat
  | surrogate k => surrogateStart + k

/-- The code point of a number; U+FFFD for a number that is too large. -/
def ofNat (n : Nat) : CodePoint :=
  if h : surrogateStart ≤ n ∧ n < surrogateStart + 0x800 then
    surrogate ⟨n - surrogateStart, by omega⟩
  else char (if n.isValidChar then Char.ofNat n else '\ufffd')

end CodePoint

/-- A text as a wide one. -/
def Text.wide (s : Text) : WideText := s.map .char

instance : Coe Text WideText := ⟨Text.wide⟩

namespace WideText

/-- The text that a wide text is, if it holds no surrogate. -/
def text? : WideText → Option Text
  | [] => some []
  | .char c :: s => (text? s).map (c :: ·)
  | .surrogate _ :: _ => none

theorem text?_wide (s : Text) : text? s.wide = some s := by
  induction s with
  | nil => rfl
  | cons c s ih => simpa [Text.wide, text?] using ih

theorem text?_eq_some_iff {w : WideText} {s : Text} : text? w = some s ↔ w = s.wide := by
  constructor
  · intro h
    fun_induction text? w generalizing s with
    | case1 => simp_all [Text.wide]
    | case2 c w ih =>
      obtain ⟨t, ht, rfl⟩ := Option.map_eq_some_iff.1 h
      simp [ih ht, Text.wide]
    | case3 => simp at h
  · rintro rfl
    exact text?_wide s

/-- The characters of a wide text. -/
def chars (s : WideText) : Text :=
  s.filterMap fun
    | .char c => some c
    | .surrogate _ => none

/-- The text as a literal, with surrogates escaped. -/
def quoted (s : WideText) : Text :=
  let mark := Text.quoteMark s.chars
  let point : CodePoint → Text
    | .char c => Text.quotedChar mark c
    | p => '\\' :: 'u' :: Text.hex 4 p.value
  mark :: s.flatMap point ++ [mark]

end WideText

end FlowReport
