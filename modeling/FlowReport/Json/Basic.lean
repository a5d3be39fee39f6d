import FlowReport.Decimal.Double
import FlowReport.Table
import FlowReport.Text.Wide

/-!
# JSON values

Values as documents hold them: whole numbers of any size are told apart from floating-point
numbers, and objects keep the order of their keys. A value has a text for messages, in which
texts inside arrays and objects are quoted. A string may hold surrogates, which a document can
name.
-/

namespace FlowReport

/-- A JSON value. -/
inductive Json where
  | null
  | bool (b : Bool)
  | int (i : Int)
  | float (f : Float)
  | str (s : WideText)
  | arr (items : List Json)
  | obj (fields : List (WideText × Json))

namespace Json

instance : Inhabited Json := ⟨.null⟩

/-- A text as a value. -/
def ofText (s : Text) : Json := .str s.wide

/-- The words of doubles in messages. -/
def messageWords : Decimal.SpecialWords := ⟨"inf", "nan"⟩

mutual

/-- The value as a literal for messages. -/
def literal : Json → Text
  | .null => "None"
  | .bool true => "True"
  | .bool false => "False"
  | .int i => Numeral.ofInt i
  | .float f => Decimal.doubleText messageWords f.toBits.toNat
  | .str s => s.quoted
  | .arr items => '[' :: Text.join ", " (literals items) ++ [']']
  | .obj fields => '{' :: Text.join ", " (fieldLiterals fields) ++ ['}']

/-- The literals of the items of an array. -/
def literals : List Json → List Text
  | [] => []
  | v :: rest => literal v :: literals rest

/-- The keys and literals of the fields of an object. -/
def fieldLiterals : List (WideText × Json) → List Text
  | [] => []
  | (k, v) :: rest => (k.quoted ++ ": " ++ literal v) :: fieldLiterals rest

end

/-- The value as a plain text: a text is itself, any other value its literal. -/
def plain : Json → WideText
  | .str s => s
  | v => v.literal.wide

/-- The value counts as given: it is not null, false, zero or empty. -/
def isGiven : Json → Bool
  | .null => false
  | .bool b => b
  | .int i => i ≠ 0
  | .float f => !(f == 0.0)
  | .str s => s ≠ []
  | .arr items => !items.isEmpty
  | .obj fields => !fields.isEmpty

/-- The value of a field. -/
def field? (v : Json) (key : Text) : Option Json :=
  match v with
  | .obj fields => Table.get? fields key.wide
  | _ => none

end Json

end FlowReport
