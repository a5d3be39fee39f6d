import FlowReport.Json.Printer

/-!
# Primitives

A control flow primitive: its kind, the names of its basic blocks in their order, and the names
of the node that replaces them, of its entry and of its exit. A primitive that was read keeps
its record as it was, so that it can be handed on unchanged.
-/

namespace FlowReport

/-- A control flow primitive. -/
structure Primitive where
  kind : WideText
  nodes : List WideText
  node : Option WideText := none
  entry : Option WideText := none
  exit : Option WideText := none
  record : Table Json WideText := []

/-- Why a value was not read as primitives. -/
inductive PrimitiveError where
  | notAnObject (value : Json)
  | nodesNotAList (value : Json)
  | notAnArray

namespace Primitive

/-- A field of a record. -/
def field? (key : Text) (fields : Table Json WideText) : Option Json := fields.get? key.wide

/-- Two primitives agree if they do in all but their records. -/
def agrees (p q : Primitive) : Bool :=
  p.kind = q.kind && p.nodes = q.nodes && p.node = q.node && p.entry = q.entry && p.exit = q.exit

/-- The names of the blocks in the `nodes` field of a record. -/
def nodesOf (value : Option Json) : Except PrimitiveError (List WideText) :=
  match value with
  | some (.obj fields) => .ok (fields.map fun f => f.2.plain)
  | some (.arr items) => .ok (items.map Json.plain)
  | none | some .null => .ok []
  | some v => .error (.nodesNotAList v)

/-- The text of a field, unless it is null. -/
def optionalText : Option Json → Option WideText
  | none | some .null => none
  | some v => some v.plain

/-- The kind that a record names: the first of its two fields that is given. -/
def kindOf (fields : Table Json WideText) : WideText :=
  match (field? "prim" fields).filter Json.isGiven with
  | some v => v.plain
  | none =>
    match (field? "kind" fields).filter Json.isGiven with
    | some v => v.plain
    | none => []

/-- Reads a primitive from its record. -/
def ofJson : Json → Except PrimitiveError Primitive
  | .obj fields => do
    let nodes ← nodesOf (field? "nodes" fields)
    .ok {
      kind := kindOf fields
      nodes
      node := optionalText (field? "node" fields)
      entry := optionalText (field? "entry" fields)
      exit := optionalText (field? "exit" fields)
      record := fields }
  | v => .error (.notAnObject v)

/-- A field for a text that is there. -/
def textField (key : Text) : Option WideText → Table Json WideText
  | none => []
  | some s => [(key.wide, .str s)]

/-- The record of a primitive: the one it was read from, or one made of its parts. -/
def toJson (p : Primitive) : Json :=
  if p.record.isEmpty then
    .obj (textField "prim" p.kind ++ [(Text.wide "nodes", .arr (p.nodes.map .str))] ++
      textField "node" p.node ++ textField "entry" p.entry ++ textField "exit" p.exit)
  else .obj p.record

/-- Reads a list of primitives. The recovery tool writes null where there are none. -/
def listOfJson : Json → Except PrimitiveError (List Primitive)
  | .null => .ok []
  | .arr items => items.mapM ofJson
  | _ => .error .notAnArray

/-- The document that holds a list of primitives. -/
def document (prims : List Primitive) : Text :=
  (Json.arr (prims.map toJson)).indented 0 ++ ['\n']

end Primitive

end FlowReport
