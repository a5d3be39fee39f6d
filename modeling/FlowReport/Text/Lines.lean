import FlowReport.Text.Basic

/-!
# Lines

A text cut into lines. Each line carries the break that ends it; a carriage return before a
line feed belongs to one break with it. The last line may lack a break, and a text that ends
with a break has no empty line after it. Nothing is lost: bodies and breaks, written one after
the other, give the text back.
-/

namespace FlowReport.Text

/-- The lines of a text, each as its body and its break. -/
def brokenLines : Text → List (Text × Text)
  | [] => []
  | '\r' :: '\n' :: s => ([], ['\r', '\n']) :: brokenLines s
  | c :: s =>
    if isLineBreak c then ([], [c]) :: brokenLines s
    else match brokenLines s with
      | [] => [([c], [])]
      | (body, ending) :: rest => (c :: body, ending) :: rest

/-- The lines of a text without their breaks. -/
def lines (s : Text) : List Text := (brokenLines s).map (·.1)

/-- The lines of a text with their breaks. -/
def fullLines (s : Text) : List Text := (brokenLines s).map fun l => l.1 ++ l.2

theorem flatten_fullLines (s : Text) : (fullLines s).flatten = s := by
  unfold fullLines
  fun_induction brokenLines s with
  | case1 => rfl
  | case2 s ih => simpa using ih
  | case3 c s _ _ ih => simpa using ih
  | case4 c s _ _ hs ih => simp_all
  | case5 c s _ _ body ending rest hs ih => simp_all

/-- Carriage returns, alone or before a line feed, become line feeds. -/
def unifyBreaks : Text → Text
  | [] => []
  | '\r' :: '\n' :: s => '\n' :: unifyBreaks s
  | c :: s => (if c = '\r' then '\n' else c) :: unifyBreaks s

end FlowReport.Text
