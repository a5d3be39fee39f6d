import FlowReport.Text.Basic

/-!
# Brackets

Nesting and balance of brackets in assembly text. Quotes come in pairs and hide what stands
between them from the readers that know about strings; what stands behind a semicolon is a
comment.
-/

namespace FlowReport.Assembly

/-- How deep in brackets a place is, and whether it is inside a string. Brackets that close
without an opening one do not count. -/
structure Nesting where
  depth : Nat
  inString : Bool
  deriving DecidableEq, Repr

namespace Nesting

/-- Outside of everything. -/
def outside : Nesting := ⟨0, false⟩

/-- The nesting behind a character. -/
def step (n : Nesting) (c : Char) : Nesting :=
  if c = '"' then { n with inString := !n.inString }
  else if n.inString then n
  else if c = '{' ∨ c = '[' ∨ c = '(' then { n with depth := n.depth + 1 }
  else if c = '}' ∨ c = ']' ∨ c = ')' then { n with depth := n.depth - 1 }
  else n

end Nesting

/-- The raw pieces between the commas outside strings and brackets, from a given nesting. -/
def rawPieces : Nesting → Text → List Text
  | _, [] => [[]]
  | n, c :: s =>
    if c = ',' ∧ n.step c = .outside then [] :: rawPieces .outside s
    else match rawPieces (n.step c) s with
      | [] => [[c]]
      | piece :: pieces => (c :: piece) :: pieces

/-- The trimmed pieces between the commas outside strings and brackets, empty ones dropped. -/
def splitFields (s : Text) : List Text :=
  ((rawPieces .outside s).map Text.trim).filter (· ≠ [])

/-- The text before the parenthesis that closes `depth` open ones and then one more; strings
are not special here. -/
def enclosed? : (depth : Nat) → Text → Option Text
  | _, [] => none
  | depth, c :: s =>
    if c = '(' then (enclosed? (depth + 1) s).map (c :: ·)
    else if c = ')' then
      match depth with
      | 0 => some []
      | depth + 1 => (enclosed? depth s).map (c :: ·)
    else (enclosed? depth s).map (c :: ·)

/-- Opened less closed square brackets and parentheses, outside strings and comments. -/
def balanceFrom : (inString : Bool) → Text → Int
  | _, [] => 0
  | inString, c :: s =>
    if c = '"' then balanceFrom (!inString) s
    else if inString then balanceFrom inString s
    else if c = ';' then 0
    else if c = '[' ∨ c = '(' then balanceFrom inString s + 1
    else if c = ']' ∨ c = ')' then balanceFrom inString s - 1
    else balanceFrom inString s

/-- The bracket balance of an instruction line. -/
def bracketBalance (s : Text) : Int := balanceFrom false s

/-- Opened less closed parentheses of a metadata line, wherever they stand. -/
def parenBalance (s : Text) : Int := (s.count '(' : Int) - (s.count ')' : Int)

/-- Takes lines for as long as the balance is positive; each line taken adds its weight. -/
def takeOpen (weight : Text → Int) : (balance : Int) → List Text → List Text × List Text
  | _, [] => ([], [])
  | balance, line :: rest =>
    if 0 < balance then
      let (taken, left) := takeOpen weight (balance + weight line) rest
      (line :: taken, left)
    else ([], line :: rest)

theorem takeOpen_append (weight : Text → Int) (balance : Int) (ls : List Text) :
    (takeOpen weight balance ls).1 ++ (takeOpen weight balance ls).2 = ls := by
  fun_induction takeOpen weight balance ls <;> simp_all

theorem length_takeOpen_snd_le (weight : Text → Int) (balance : Int) (ls : List Text) :
    (takeOpen weight balance ls).2.length ≤ ls.length := by
  conv => rhs; rw [← takeOpen_append weight balance ls]
  simp

end FlowReport.Assembly
