import FlowReport.Proofs.Escapes
import FlowReport.Proofs.Fields

/-!
# Printed signatures

The header of a function as a compiler prints it, from the types, the attributes and the names of its
parameters. What is printed for a parameter is a `Piece`: no comma in it stands outside of strings and
brackets, its strings are closed, and it has no blank at either end.
-/

namespace FlowReport.Assembly

/-! ## Types, attributes and parameters -/

/-- A keyword: a small letter, and more characters of bare identifiers. -/
structure Word where
  first : Char
  more : Text
  fine : first.isLower ∧ ∀ c ∈ more, isBare c = true

/-- The text of a keyword. -/
def Word.text (w : Word) : Text := w.first :: w.more

/-- A name, bare or as escaped bytes between quotes. -/
inductive Name where
  | bare (text : Text) (fine : text ≠ [] ∧ ∀ c ∈ text, isBare c = true)
  | quoted (bytes : Bytes)

namespace Name

/-- The text of a name. -/
def text : Name → Text
  | bare text _ => text
  | quoted bytes => written bytes

/-- The identifier that a name is read as. -/
def ident : Name → Ident
  | bare text _ => .bare text
  | quoted bytes => .quoted (escape bytes)

end Name

/-- The types of parameters. -/
inductive Ty where
  /-- An integer, a number or an opaque pointer. -/
  | word (w : Word)
  | named (name : Name)
  | pointer (target : Ty)
  /-- A pointer into an address space. -/
  | placed (target : Ty) (space : Nat)
  | struct (fields : List Ty)
  | packed (fields : List Ty)
  | array (count : Nat) (element : Ty)
  | vector (count : Nat) (element : Ty)
  /-- A vector of a multiple of so many elements. -/
  | scalable (count : Nat) (element : Ty)
  | function (result : Ty) (parameters : List Ty) (variadic : Bool)

/-- The pieces of a list, and dots if it goes on. -/
def withDots (pieces : List Text) (variadic : Bool) : List Text :=
  if variadic then pieces ++ [['.', '.', '.']] else pieces

/-- The fields of a structure; a blank stands at either end unless there are none. -/
def padded (fields : List Text) : Text :=
  if fields = [] then [] else ' ' :: (Text.join ", " fields ++ [' '])

/-- So many of something. -/
def times (count element : Text) : Text := count ++ ' ' :: 'x' :: ' ' :: element

/-- Something in parentheses. -/
def parenthesized (s : Text) : Text := '(' :: (s ++ [')'])

/-- Something in braces. -/
def braced (s : Text) : Text := '{' :: (s ++ ['}'])

/-- Something between angles. -/
def angled (s : Text) : Text := '<' :: (s ++ ['>'])

mutual

/-- The text of a type. -/
def Ty.text : Ty → Text
  | .word w => w.text
  | .named name => '%' :: name.text
  | .pointer target => target.text ++ ['*']
  | .placed target space =>
    target.text ++ (' ' :: ("addrspace".toList ++ parenthesized (Numeral.ofNat space)))
  | .struct fields => braced (padded (Ty.texts fields))
  | .packed fields => angled (braced (padded (Ty.texts fields)))
  | .array count element => '[' :: (times (Numeral.ofNat count) element.text ++ [']'])
  | .vector count element => angled (times (Numeral.ofNat count) element.text)
  | .scalable count element =>
    angled (times "vscale" (times (Numeral.ofNat count) element.text))
  | .function result parameters variadic => result.text ++
      (' ' :: parenthesized (Text.join ", " (withDots (Ty.texts parameters) variadic)))

/-- The texts of types. -/
def Ty.texts : List Ty → List Text
  | [] => []
  | t :: ts => t.text :: Ty.texts ts

end

/-- A text whose strings are closed and hold escaped bytes. -/
inductive Tidy : Text → Prop where
  | nil : Tidy []
  | cons {c : Char} {s : Text} (plain : c ≠ '"' ∧ c ≠ '\\') (tail : Tidy s) : Tidy (c :: s)
  | quoted (bs : Bytes) {s : Text} (tail : Tidy s) : Tidy ('"' :: (escape bs ++ '"' :: s))

/-- What may stand between brackets. -/
structure Inner (s : Text) : Prop extends Level s where
  tidy : Tidy s

/-- The attributes of parameters. -/
inductive Attribute where
  | word (w : Word)
  | number (w : Word) (n : Nat)
  | call (w : Word) (arguments : Text) (inner : Inner arguments)
  | string (key : Bytes) (value? : Option Bytes)

/-- The text of an attribute. -/
def Attribute.text : Attribute → Text
  | .word w => w.text
  | .number w n => w.text ++ ' ' :: Numeral.ofNat n
  | .call w arguments _ => w.text ++ parenthesized arguments
  | .string key none => written key
  | .string key (some value) => written key ++ '=' :: written value

/-- A parameter. -/
structure Parameter where
  type : Ty
  attributes : List Attribute := []
  name? : Option Name := none

namespace Parameter

/-- The text of a parameter without its name. -/
def front (p : Parameter) : Text := p.type.text ++ p.attributes.flatMap (' ' :: ·.text)

/-- The text of a parameter. -/
def text (p : Parameter) : Text :=
  match p.name? with
  | some name => p.front ++ ' ' :: '%' :: name.text
  | none => p.front

end Parameter

/-- The header of a function: what stands before its name, the name, the parameters, dots if there
can be more of them, and the rest. -/
structure Signature where
  front : Text
  name : Name
  parameters : List Parameter
  variadic : Bool := false
  rest : Text

namespace Signature

/-- The text between the parentheses of a header. -/
def list (sig : Signature) : Text :=
  Text.join ", " (withDots (sig.parameters.map Parameter.text) sig.variadic)

/-- The text of a header. -/
def text (sig : Signature) : Text :=
  sig.front ++ '@' :: (sig.name.text ++ '(' :: (sig.list ++ ')' :: sig.rest))

end Signature


/-! ## Pieces of a signature -/

/-- A text with no blank at either end. -/
def Solid (s : Text) : Prop :=
  (∃ c ∈ s.head?, isBlank c = false) ∧ ∃ c ∈ s.getLast?, isBlank c = false

/-- What may stand between the commas of a list. -/
structure Piece (s : Text) : Prop extends Field s where
  tidy : Tidy s
  solid : Solid s

variable {s t : Text}

theorem Tidy.append (hs : Tidy s) (ht : Tidy t) : Tidy (s ++ t) := by
  induction hs with
  | nil => exact ht
  | cons plain _ ih => exact .cons plain ih
  | quoted bs _ ih =>
    rw [List.cons_append, List.append_assoc, List.cons_append]
    exact .quoted bs ih

theorem Tidy.of_plain (each : ∀ c ∈ s, c ≠ '"' ∧ c ≠ '\\') : Tidy s := by
  induction s with
  | nil => exact .nil
  | cons c s ih =>
    obtain ⟨own, others⟩ := List.forall_mem_cons.1 each
    exact .cons own (ih others)

namespace Solid

theorem trim (solid : Solid s) : s ≠ [] ∧ s.trim = s := by
  obtain ⟨⟨c, head, nonblank⟩, ⟨d, last, nonblank'⟩⟩ := solid
  obtain ⟨rest, rfl⟩ := List.head?_eq_some_iff.1 head
  obtain ⟨front, same⟩ := List.getLast?_eq_some_iff.1 last
  refine ⟨List.cons_ne_nil c rest, ?_⟩
  rw [Text.trim, Text.dropBlank_cons nonblank, same]
  exact Text.dropBlankEnd_append_cons nonblank' front []

/-- Anything may stand between two texts without blanks at the ends. -/
theorem append (hs : Solid s) (middle : Text) (ht : Solid t) : Solid (s ++ (middle ++ t)) := by
  obtain ⟨⟨c, head, nonblank⟩, -⟩ := hs
  obtain ⟨-, ⟨d, last, nonblank'⟩⟩ := ht
  obtain ⟨rest, rfl⟩ := List.head?_eq_some_iff.1 head
  obtain ⟨front, rfl⟩ := List.getLast?_eq_some_iff.1 last
  refine ⟨⟨c, rfl, nonblank⟩, d, ?_, nonblank'⟩
  rw [← List.append_assoc, ← List.append_assoc, Option.mem_def, List.getLast?_concat]

theorem singleton {c : Char} (nonblank : isBlank c = false) : Solid [c] :=
  ⟨⟨c, rfl, nonblank⟩, c, rfl, nonblank⟩

end Solid

namespace Inner

theorem nil : Inner [] := ⟨.nil, .nil⟩

theorem append (hs : Inner s) (ht : Inner t) : Inner (s ++ t) :=
  ⟨hs.toLevel.append ht.toLevel, hs.tidy.append ht.tidy⟩

theorem plain {c : Char} (plain : c ∉ ['"', '{', '[', '(', '}', ']', ')', '\\']) : Inner [c] := by
  simp only [List.mem_cons, List.not_mem_nil, or_false, not_or] at plain
  exact ⟨.plain (by simp [plain]), .of_plain (by simp [plain])⟩

theorem cons {c : Char} (own : c ∉ ['"', '{', '[', '(', '}', ']', ')', '\\']) (hs : Inner s) :
    Inner (c :: s) := (plain own).append hs

/-- Texts that may stand between brackets may do so with commas between them. -/
theorem join {pieces : List Text} (each : ∀ p ∈ pieces, Inner p) :
    Inner (Text.join ", " pieces) := by
  induction pieces with
  | nil => exact nil
  | cons p pieces ih =>
    obtain ⟨own, others⟩ := List.forall_mem_cons.1 each
    cases pieces with
    | nil => exact own
    | cons q pieces =>
      rw [Text.join, List.append_assoc]
      exact own.append (.cons (by decide) (.cons (by decide) (ih others)))

end Inner

namespace Piece

theorem within (h : Piece s) : Inner s := ⟨h.toLevel, h.tidy⟩

theorem append (hs : Piece s) (ht : Piece t) : Piece (s ++ t) where
  toField := hs.toField.append ht.toField
  tidy := hs.tidy.append ht.tidy
  solid := by
    have whole := hs.solid.append [] ht.solid
    exact whole

/-- Pieces with a blank between them. -/
theorem append_blank (hs : Piece s) (ht : Piece t) : Piece (s ++ ' ' :: t) where
  toField := hs.toField.append (.cons (by decide) ht.toField)
  tidy := hs.tidy.append (.cons (by decide) ht.tidy)
  solid := hs.solid.append [' '] ht.solid

/-- A character that is no mark is a piece. -/
theorem plain {c : Char} (plain : c ∉ ['"', '{', '[', '(', '}', ']', ')', ',', '\\'])
    (nonblank : isBlank c = false) : Piece [c] := by
  simp only [List.mem_cons, List.not_mem_nil, or_false, not_or] at plain
  exact ⟨.plain (by simp [plain]), .of_plain (by simp [plain]), .singleton nonblank⟩

/-- A run of characters of bare identifiers is a piece. -/
theorem bare (nonempty : s ≠ []) (each : ∀ c ∈ s, isBare c = true) : Piece s := by
  induction s with
  | nil => exact absurd rfl nonempty
  | cons c s ih =>
    obtain ⟨own, others⟩ := List.forall_mem_cons.1 each
    have marks : ∀ c ∈ ['"', '{', '[', '(', '}', ']', ')', ',', '\\'], isBare c = false := by
      decide
    have first : Piece [c] := by
      refine plain (fun member => ?_) (not_blank_of_isBare own)
      rw [marks c member] at own
      cases own
    cases s with
    | nil => exact first
    | cons d s => exact first.append (ih (List.cons_ne_nil d s) others)

theorem numeral (n : Nat) : Piece (Numeral.ofNat n) :=
  .bare (Numeral.ofNat_ne_nil n) fun _ member =>
    isBare_of_isDigit (Numeral.isDigit_of_mem_ofNat member)

/-- Whatever may stand between brackets makes a piece with them. -/
theorem bracketed {opening closing : Char} (opens : opening ∈ ['{', '[', '('])
    (closes : closing ∈ ['}', ']', ')']) (inner : Inner s) :
    Piece (opening :: (s ++ [closing])) where
  toField := .bracketed opens closes inner.toLevel
  tidy := by
    have each : ∀ c ∈ ['{', '[', '(', '}', ']', ')'], c ≠ '"' ∧ c ≠ '\\' := by decide
    refine .cons (each _ (List.mem_append_left ['}', ']', ')'] opens)) (inner.tidy.append ?_)
    exact .cons (each _ (List.mem_append_right ['{', '[', '('] closes)) .nil
  solid := by
    have each : ∀ c ∈ ['{', '[', '(', '}', ']', ')'], isBlank c = false := by decide
    exact .append (s := [opening]) (.singleton (each _ (List.mem_append_left ['}', ']', ')'] opens)))
      s (.singleton (each _ (List.mem_append_right ['{', '[', '('] closes)))

/-- Bytes between quotes are a piece. -/
theorem quoted (bs : Bytes) : Piece (written bs) where
  toField := .quoted fun member => (isPrinting_of_mem_escape member).2 rfl
  tidy := .quoted bs .nil
  solid := .append (s := ['"']) (.singleton (by decide)) _ (.singleton (by decide))

/-- Pieces are what the list of them is cut into. -/
theorem splitFields_join {pieces : List Text} (each : ∀ p ∈ pieces, Piece p) :
    splitFields (Text.join ", " pieces) = pieces :=
  Assembly.splitFields_join (fun p member => (each p member).toField)
    fun p member => (each p member).solid.trim

end Piece

theorem Word.bare (w : Word) : ∀ c ∈ w.text, isBare c = true := by
  refine List.forall_mem_cons.2 ⟨?_, w.fine.2⟩
  have range : 'a' ≤ w.first ∧ w.first ≤ 'z' := by
    obtain ⟨low, high⟩ := (Bool.and_eq_true _ _).mp w.fine.1
    exact ⟨of_decide_eq_true low, of_decide_eq_true high⟩
  simp [isBare, range]

theorem Word.piece (w : Word) : Piece w.text := .bare (List.cons_ne_nil _ _) w.bare

theorem Name.piece : (name : Name) → Piece name.text
  | .bare _ fine => .bare fine.1 fine.2
  | .quoted bytes => .quoted bytes

theorem piece_parenthesized (inner : Inner s) : Piece (parenthesized s) :=
  .bracketed (by decide) (by decide) inner

theorem piece_braced (inner : Inner s) : Piece (braced s) :=
  .bracketed (by decide) (by decide) inner

theorem piece_angled (piece : Piece s) : Piece (angled s) :=
  (Piece.plain (c := '<') (by decide) (by decide)).append
    (piece.append (.plain (by decide) (by decide)))

theorem piece_times (count : Piece s) (element : Piece t) : Piece (times s t) :=
  count.append_blank ((Piece.plain (c := 'x') (by decide) (by decide)).append_blank element)

theorem inner_padded {pieces : List Text} (each : ∀ p ∈ pieces, Piece p) :
    Inner (padded pieces) := by
  unfold padded
  split
  · exact .nil
  · exact .cons (by decide) ((Inner.join fun p member => (each p member).within).append
      (.plain (by decide)))

theorem piece_of_mem_withDots {pieces : List Text} {variadic : Bool}
    (each : ∀ p ∈ pieces, Piece p) : ∀ p ∈ withDots pieces variadic, Piece p := by
  unfold withDots
  split
  · refine List.forall_mem_append.2 ⟨each, List.forall_mem_singleton.2 ?_⟩
    exact .bare (by decide) (by decide)
  · exact each

mutual

theorem Ty.piece : (t : Ty) → Piece t.text
  | .word w => w.piece
  | .named name => (Piece.plain (c := '%') (by decide) (by decide)).append name.piece
  | .pointer target => target.piece.append (.plain (by decide) (by decide))
  | .placed target space =>
    target.piece.append_blank ((Piece.bare (by decide) (by decide)).append
      (piece_parenthesized (Piece.numeral space).within))
  | .struct fields => piece_braced (inner_padded (Ty.pieces fields))
  | .packed fields => piece_angled (piece_braced (inner_padded (Ty.pieces fields)))
  | .array count element =>
    .bracketed (by decide) (by decide) (piece_times (.numeral count) element.piece).within
  | .vector count element => piece_angled (piece_times (.numeral count) element.piece)
  | .scalable count element => piece_angled (piece_times (.bare (by decide) (by decide))
      (piece_times (.numeral count) element.piece))
  | .function result parameters variadic =>
    result.piece.append_blank (piece_parenthesized (.join fun p member =>
      (piece_of_mem_withDots (Ty.pieces parameters) p member).within))

theorem Ty.pieces : (ts : List Ty) → ∀ p ∈ Ty.texts ts, Piece p
  | [] => fun _ member => by cases member
  | t :: ts => List.forall_mem_cons.2 ⟨t.piece, Ty.pieces ts⟩

end

theorem Attribute.piece : (a : Attribute) → Piece a.text
  | .word w => w.piece
  | .number w n => w.piece.append_blank (.numeral n)
  | .call w _ inner => w.piece.append (piece_parenthesized inner)
  | .string key none => .quoted key
  | .string key (some value) =>
    (Piece.quoted key).append ((Piece.plain (c := '=') (by decide) (by decide)).append
      (.quoted value))

namespace Parameter

theorem piece_front (p : Parameter) : Piece p.front := by
  suffices behind : ∀ attributes : List Attribute, ∀ {s}, Piece s →
      Piece (s ++ attributes.flatMap (' ' :: ·.text)) from behind _ p.type.piece
  intro attributes
  induction attributes with
  | nil =>
    intro s piece
    rw [List.flatMap_nil, List.append_nil]
    exact piece
  | cons a attributes ih =>
    intro s piece
    rw [List.flatMap_cons, ← List.append_assoc]
    exact ih (piece.append_blank a.piece)

theorem piece (p : Parameter) : Piece p.text := by
  unfold text
  split
  · rename_i name _
    exact p.piece_front.append_blank
      ((Piece.plain (c := '%') (by decide) (by decide)).append name.piece)
  · exact p.piece_front

end Parameter

/-- The list of the parameters is split into them. -/
theorem Signature.splitFields_list (sig : Signature) : splitFields sig.list =
    withDots (sig.parameters.map Parameter.text) sig.variadic :=
  Piece.splitFields_join (piece_of_mem_withDots (List.forall_mem_map.2 fun p _ => p.piece))

end FlowReport.Assembly
