import FlowReport.PrimitiveFile
import FlowReport.Proofs.Companions
import FlowReport.Proofs.JsonRoundTrip
import FlowReport.Proofs.Results

/-!
# Primitives in files

A primitive goes into a file as the record it came from, or as a record made of its parts, and the
one that is read back agrees with it. The record decides which primitive is read: what it names by
another key, leaves out or gives as a value of another type comes out as it did the first time. A
record that was read is written as it was, down to the empty one, which passes for none.
-/

namespace FlowReport

open FileTree

theorem Text.wide_injective : Function.Injective Text.wide :=
  List.map_injective_iff.2 fun _ _ same => CodePoint.char.inj same

namespace Primitive

variable {p : Primitive} {v : Json}

/-- The primitive was read from a record, or made of its parts without one. -/
def Made (p : Primitive) : Prop := (∃ v, ofJson v = .ok p) ∨ p.record = []

theorem ofJson_obj {fields : Table Json WideText} {nodes : List WideText}
    (h : nodesOf (field? "nodes" fields) = .ok nodes) : ofJson (.obj fields) = .ok {
      kind := kindOf fields
      nodes
      node := optionalText (field? "node" fields)
      entry := optionalText (field? "entry" fields)
      exit := optionalText (field? "exit" fields)
      record := fields } := by
  rw [ofJson]
  simp only [h]
  rfl

/-- A primitive that was read holds what it was read from. -/
theorem record_of_ofJson (h : ofJson v = .ok p) : v = .obj p.record := by
  cases v with
  | obj fields =>
    rw [ofJson] at h
    cases nodes : nodesOf (field? "nodes" fields) with
    | error e => simp only [nodes] at h; cases h
    | ok nodes' => simp only [nodes] at h; cases h; rfl
  | _ => cases h

theorem toJson_of_record (given : p.record ≠ []) : p.toJson = .obj p.record := by
  rw [toJson, if_neg (mt List.isEmpty_iff.1 given)]

/-- What an empty record is written as: the parts of a primitive that has none of them. -/
def emptyParts : Table Json WideText := [(Text.wide "prim", .str []), (Text.wide "nodes", .arr [])]

theorem toJson_of_empty (read : ofJson (.obj []) = .ok p) : p.toJson = .obj emptyParts := by
  cases read
  rfl

/-- A record is written as it was read unless it is empty. -/
theorem toJson_eq_iff (read : ofJson v = .ok p) : p.toJson = v ↔ v ≠ .obj [] := by
  by_cases empty : v = .obj []
  · subst empty
    rw [toJson_of_empty read]
    simp [emptyParts]
  · have same := record_of_ofJson read
    have given : p.record ≠ [] := by
      intro none
      rw [none] at same
      exact empty same
    rw [toJson_of_record given, ← same]
    exact iff_of_true rfl empty

/-- Records are written as they were read if and only if none of them is empty. -/
theorem map_toJson_eq_iff {items : List Json} {prims : List Primitive}
    (read : items.mapM ofJson = .ok prims) : prims.map toJson = items ↔ Json.obj [] ∉ items := by
  rw [mapM_eq_ok_iff] at read
  induction read with
  | nil => simp
  | cons first rest ih =>
    rw [List.map_cons, List.cons.injEq, ih, toJson_eq_iff first, List.mem_cons, not_or, ne_comm]

/-- The fields that a primitive without a record is written with. -/
def parts (p : Primitive) : Table Json WideText :=
  textField "prim" p.kind ++ [(Text.wide "nodes", .arr (p.nodes.map .str))] ++
    textField "node" p.node ++ textField "entry" p.entry ++ textField "exit" p.exit

theorem toJson_of_parts (none : p.record = []) : p.toJson = .obj p.parts := by
  rw [toJson, if_pos (List.isEmpty_iff.2 none)]
  rfl

theorem field?_append (key : Text) (t u : Table Json WideText) :
    field? key (t ++ u) = (field? key t).or (field? key u) := Table.get?_append t u _

theorem field?_textField (key other : Text) (s : Option WideText) :
    field? key (textField other s) = if other = key then s.map .str else none := by
  cases s with
  | none => simp [field?, textField, Table.get?]
  | some s => simp [field?, textField, Table.get?, Text.wide_injective.eq_iff]

theorem field?_cons (key other : Text) (v : Json) (t : Table Json WideText) :
    field? key ((other.wide, v) :: t) = if other = key then some v else field? key t := by
  simp [field?, Table.get?, Text.wide_injective.eq_iff]

theorem optionalText_str (s : Option WideText) : optionalText (s.map .str) = s := by
  cases s <;> rfl

section Parts

/-! Each part is found under its key, and the kind under no other. -/

attribute [local simp] parts field?_append field?_textField field?_cons

theorem kindOf_parts (p : Primitive) : kindOf p.parts = p.kind := by
  have given : field? "prim" p.parts = some (.str p.kind) := by simp
  have other : field? "kind" p.parts = none := by simp
  rw [kindOf, given, other]
  cases kind : p.kind <;> rfl

theorem nodesOf_parts (p : Primitive) : nodesOf (field? "nodes" p.parts) = .ok p.nodes := by
  have given : field? "nodes" p.parts = some (.arr (p.nodes.map .str)) := by simp
  rw [given, nodesOf, List.map_map]
  exact congrArg Except.ok (List.map_id p.nodes)

theorem optionalText_parts (p : Primitive) : optionalText (field? "node" p.parts) = p.node ∧
    optionalText (field? "entry" p.parts) = p.entry ∧
      optionalText (field? "exit" p.parts) = p.exit := by
  simp [optionalText_str]

end Parts

/-- A record made of the parts of a primitive is read as those parts. -/
theorem ofJson_parts (p : Primitive) : ∃ q, ofJson (.obj p.parts) = .ok q ∧ q.agrees p = true := by
  obtain ⟨node, entry, exit⟩ := optionalText_parts p
  refine ⟨_, ofJson_obj (nodesOf_parts p), ?_⟩
  simp only [agrees, kindOf_parts, node, entry, exit, decide_true, Bool.and_self]

/-- What a primitive is written as is read as a primitive that agrees with it. -/
theorem Made.ofJson_toJson (made : p.Made) : ∃ q, ofJson p.toJson = .ok q ∧ q.agrees p = true := by
  by_cases none : p.record = []
  · rw [toJson_of_parts none]
    exact ofJson_parts p
  · obtain ⟨v, read⟩ := made.resolve_right none
    rw [toJson_of_record none, ← record_of_ofJson read]
    exact ⟨p, read, by simp [agrees]⟩

theorem listOfJson_toJson {prims : List Primitive} (made : ∀ p ∈ prims, p.Made) :
    ∃ loaded, listOfJson (.arr (prims.map toJson)) = .ok loaded ∧
      List.Forall₂ (fun q p => q.agrees p = true) loaded prims := by
  rw [listOfJson]
  induction prims with
  | nil => exact ⟨[], rfl, .nil⟩
  | cons p prims ih =>
    obtain ⟨head, tail⟩ := List.forall_mem_cons.1 made
    obtain ⟨q, read, same⟩ := head.ofJson_toJson
    obtain ⟨loaded, rest, others⟩ := ih tail
    refine ⟨q :: loaded, ?_, .cons same others⟩
    rw [List.map_cons, List.mapM_cons, read, rest]
    rfl

end Primitive

/-- A file that was written is read as what was written. -/
theorem FileTree.read_of_write {t t' : FileTree} {start : Address} {p : Path} {content : Bytes}
    (h : t.write start p content = .ok t') : t'.read start p = .ok content := by
  unfold FileTree.write at h
  cases found : t.resolve start p with
  | error fault => rw [found] at h; cases h
  | ok a =>
    rw [found] at h
    change (if t.get? a = some .directory then _ else _) = _ at h
    split at h
    · cases h
    · rename_i file
      cases h
      obtain ⟨short, rfl, entered⟩ := resolve_eq_ok_iff.1 found
      have there : (t.put (place start p) (.file content)).Entered start p := by
        rw [entered_iff] at entered ⊢
        intro front name before
        obtain ⟨directory, fits⟩ := entered front name before
        refine ⟨?_, fits⟩
        rw [get?_put_of_ne _ _, directory]
        rintro same
        exact file (same ▸ directory)
      have ne_root : place start p ≠ [] := fun root => file (by rw [root]; rfl)
      refine read_eq_ok_iff.2 ⟨_, resolve_eq_ok_iff.2 ⟨short, rfl, there⟩, ?_⟩
      rw [get?_put t _ _ _ ne_root, if_pos rfl]

namespace Action

/-- What was written can be read. -/
theorem read_of_writeBytes {p : Path} {content : Bytes} {w w' : World}
    (ran : perform (writeBytes p content) w = (.ok (), w')) :
    hasNull p = false ∧ w'.tree.read w'.directory p = .ok content := by
  obtain ⟨_, mid, checked, -⟩ := perform_bind_iff.1 ran
  obtain ⟨t, written, rfl⟩ := perform_writeBytes ran
  refine ⟨?_, read_of_write written⟩
  unfold checkNull at checked
  split at checked
  · cases checked
  · exact Bool.eq_false_iff.2 ‹_›

theorem perform_readText_iff {p : Path} {s : Text} {w w' : World} :
    perform (readText p) w = (.ok s, w') ↔ w' = w ∧ hasNull p = false ∧ ∃ bytes text,
      w.tree.read w.directory p = .ok bytes ∧ Utf8.decode bytes = .ok text ∧
        s = text.unifyBreaks := by
  unfold readText
  constructor
  · intro ran
    obtain ⟨bytes, mid, read, decode⟩ := perform_bind_iff.1 ran
    obtain ⟨named, there, rfl⟩ := perform_readBytes_iff.1 read
    unfold decoded at decode
    split at decode
    · rename_i text decoded
      cases decode
      exact ⟨rfl, named, bytes, text, there, decoded, rfl⟩
    · cases decode
  · rintro ⟨rfl, named, bytes, text, there, decode, rfl⟩
    refine perform_bind_iff.2 ⟨bytes, w', perform_readBytes_iff.2 ⟨named, there, rfl⟩, ?_⟩
    rw [decoded, decode]
    rfl

end Action

namespace PrimitiveFile

open FlowReport.Action Primitive

variable {directory : Path} {function : Text} {prims front : List Primitive} {w w' : World}

/-- Which primitives are loaded is a matter of the bytes of the file. -/
theorem load_iff : (∃ w', perform (load directory function) w = (.ok prims, w')) ↔
    hasNull (path directory function) = false ∧ ∃ bytes text,
      w.tree.read w.directory (path directory function) = .ok bytes ∧
        Utf8.decode bytes = .ok text ∧ ofText text.unifyBreaks = .ok prims := by
  constructor
  · rintro ⟨w', ran⟩
    obtain ⟨_, w₁, log, ran⟩ := perform_bind_iff.1 ran
    cases log
    obtain ⟨text, w₂, read, ran⟩ := perform_bind_iff.1 ran
    obtain ⟨rfl, named, bytes, text, there, decode, rfl⟩ := perform_readText_iff.1 read
    obtain ⟨parsed, w₄, made, ran⟩ := perform_bind_iff.1 ran
    rw [perform_ofExcept, Prod.mk.injEq] at made
    obtain ⟨_, w₅, log, ran⟩ := perform_bind_iff.1 ran
    cases ran
    exact ⟨named, bytes, text, there, decode, made.1⟩
  · rintro ⟨named, bytes, text, there, decode, made⟩
    have parsed : ∀ v, perform (Action.ofExcept (ofText text.unifyBreaks)) v = (.ok prims, v) := by
      intro v
      rw [perform_ofExcept, made]
    exact ⟨_, perform_bind_iff.2 ⟨(), _, perform_log _ _ _ _, perform_bind_iff.2
      ⟨text.unifyBreaks, _, perform_readText_iff.2 ⟨rfl, named, bytes, text, there, decode, rfl⟩,
        perform_bind_iff.2 ⟨prims, _, parsed _,
          perform_bind_iff.2 ⟨(), _, perform_log _ _ _ _, rfl⟩⟩⟩⟩⟩

theorem plain_document (prims : List Primitive) : Text.Plain (document prims) :=
  (Json.plain_indented 0 _).append (by decide)

/-- The bytes of a file with some primitives: the array of their records, indented and ended with a line
feed. If the array is read back from its lines, it is read from the file. -/
structure Records (prims : List Primitive) (bytes : Bytes) : Prop where
  written : bytes = Utf8.encode ((Json.arr (prims.map toJson)).indented 0 ++ ['\n'])
  read : Json.read ((Json.arr (prims.map toJson)).indented 0 ++ ['\n']) =
      .ok (.arr (prims.map toJson)) → ∃ text, Utf8.decode bytes = .ok text ∧
    Json.read text.unifyBreaks = .ok (.arr (prims.map toJson))

theorem records_document (prims : List Primitive) : Records prims (Utf8.encode (document prims)) where
  written := rfl
  read json := by
    refine ⟨document prims, Utf8.decode_encode (plain_document prims), ?_⟩
    rw [Text.unifyBreaks_eq (plain_document prims)]
    exact json

/-- Primitives that were written, as a document that is read as the value it was made of, are
loaded: as many, and each agrees with the one that was written. -/
theorem load_of_save (made : ∀ p ∈ prims, p.Made) (first : front <+: prims)
    (json : Json.read (document front) = .ok (.arr (front.map toJson)))
    (saved : perform (save (path directory function) front) w = (.ok (), w')) :
    ∃ loaded, (∃ w'', perform (load directory function) w' = (.ok loaded, w'')) ∧
      List.Forall₂ (fun q p => q.agrees p = true) loaded front := by
  obtain ⟨_, mid, -, written⟩ := perform_bind_iff.1 saved
  obtain ⟨loaded, parsed, same⟩ := listOfJson_toJson fun p member => made p (first.subset member)
  obtain ⟨named, there⟩ := read_of_writeBytes written
  refine ⟨loaded, load_iff.2 ⟨named, _, document front, there,
    Utf8.decode_encode (plain_document front), ?_⟩, same⟩
  rw [Text.unifyBreaks_eq (plain_document front), ofText, json]
  show (listOfJson _).mapError _ = _
  rw [parsed]
  rfl

/-- A record with both keys of the kind, the first one empty, with its nodes in an object, a null and
a key of its own. -/
def mixedRecord : Table Json WideText :=
  [(Text.wide "prim", .str []), (Text.wide "kind", .int 7),
    (Text.wide "nodes", .obj [(Text.wide "a", .ofText "A"), (Text.wide "b", .bool true)]),
    (Text.wide "exit", .null), (Text.wide "weight", .arr [.int 1])]

/-- What is read from that record, what is read from an empty one, and a primitive without one. -/
def mixedPrimitives : List Primitive :=
  [⟨Text.wide "7", [Text.wide "A", Text.wide "True"], none, none, none, mixedRecord⟩,
    ⟨[], [], none, none, none, []⟩,
    ⟨Text.wide "if", [Text.wide "C"], some (Text.wide "N"), none, some [], []⟩]

theorem made_mixedPrimitives : ∀ p ∈ mixedPrimitives, p.Made := by
  refine List.forall_mem_cons.2 ⟨.inl ⟨.obj mixedRecord, by rfl⟩,
    List.forall_mem_cons.2 ⟨.inl ⟨.obj [], by rfl⟩, List.forall_mem_cons.2 ⟨.inr rfl, nofun⟩⟩⟩

/-- The first two of them go into a file and are read back. -/
theorem load_of_save_mixed : ∃ w', perform (save (path (Path.ofText "f_graphs") "main")
    (mixedPrimitives.take 2)) {} = (.ok (), w') ∧
      ∃ loaded, (∃ w'', perform (load (Path.ofText "f_graphs") "main") w' = (.ok loaded, w'')) ∧
        List.Forall₂ (fun q p => q.agrees p = true) loaded (mixedPrimitives.take 2) := by
  have saved := perform_eq_ok (x := save (path (Path.ofText "f_graphs") "main")
    (mixedPrimitives.take 2)) (w := {}) (a := ()) (by decide +kernel)
  have json := Json.read_indented (v := .arr ((mixedPrimitives.take 2).map toJson))
    (by decide +kernel)
  exact ⟨_, saved, load_of_save made_mixedPrimitives (List.take_prefix 2 _) json saved⟩

/-- The records of an array that was read are handed on as they were, key by key and value by value,
if and only if none of those that are handed on is empty; in place of an empty one stands the record
of a primitive without parts. This is what a file holds that they are written to. -/
theorem save_keeps_records_iff {items : List Json} (read : listOfJson (.arr items) = .ok prims)
    (n : Nat) :
    ((prims.take n).map toJson = items.take n ↔ Json.obj [] ∉ items.take n) ∧
    List.Forall₂ (fun v p => (v ≠ .obj [] → p.toJson = v) ∧
      (v = .obj [] → p.toJson = .obj emptyParts)) (items.take n) (prims.take n) ∧
    ∀ path w w', perform (save path (prims.take n)) w = (.ok (), w') →
      w'.tree.read w'.directory path =
        .ok (Utf8.encode ((Json.arr ((prims.take n).map toJson)).indented 0 ++ ['\n'])) := by
  have each := List.forall₂_take n (mapM_eq_ok_iff.1 read)
  refine ⟨map_toJson_eq_iff (mapM_eq_ok_iff.2 each), each.imp ?_, ?_⟩
  · intro v p made
    refine ⟨(toJson_eq_iff made).2, ?_⟩
    rintro rfl
    exact toJson_of_empty made
  · intro path w w' saved
    obtain ⟨_, mid, -, written⟩ := perform_bind_iff.1 saved
    exact (read_of_writeBytes written).2

/-- The mixed record is handed on alone, and not with an empty one behind it. -/
theorem save_keeps_records_mixed :
    ∃ prims, listOfJson (.arr [.obj mixedRecord, .obj []]) = .ok prims ∧
      (prims.take 1).map toJson = [.obj mixedRecord] ∧
      (prims.take 2).map toJson ≠ [.obj mixedRecord, .obj []] := by
  have read : listOfJson (.arr [.obj mixedRecord, .obj []]) = .ok (mixedPrimitives.take 2) := rfl
  refine ⟨_, read, (save_keeps_records_iff read 1).1.2 ?_, ?_⟩
  · simp [mixedRecord]
  · intro kept
    exact (save_keeps_records_iff read 2).1.1 kept (by simp)

/-- An array with an empty record is not handed on as it was. -/
theorem empty_record_not_kept :
    ∃ prims, listOfJson (.arr [.obj []]) = .ok prims ∧ (prims.take 1).map toJson ≠ [.obj []] ∧
      document (prims.take 1) =
        "[\n  \x7b\n    \"prim\": \"\",\n    \"nodes\": []\n  \x7d\n]\n".toList := by
  refine ⟨_, rfl, ?_, by decide +kernel⟩
  intro kept
  exact (@map_toJson_eq_iff [.obj []] _ rfl).1 kept (by simp)

end PrimitiveFile

end FlowReport
