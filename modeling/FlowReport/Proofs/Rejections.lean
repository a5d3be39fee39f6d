import FlowReport.Error
import FlowReport.Proofs.Concatenation
import FlowReport.Proofs.Terminators

/-!
# Texts that are rejected

Reading stops at the first definition that is broken: its header is never ended, its body is never
closed, or its header names no function. It also stops at a number that cannot be read or written: a
label of digits that are not all decimal, or one with too many of them. There is no other way to fail,
and what is said of the failure tells which one it was.
-/

namespace FlowReport

/-- Steps that follow each other fail where the first of them does. -/
theorem foldlM_eq_error_iff {ε α β : Type} {f : β → α → Except ε β} {l : List α} {b : β} {e : ε} :
    l.foldlM f b = .error e ↔ ∃ before a after b', l = before ++ a :: after ∧
      before.foldlM f b = .ok b' ∧ f b' a = .error e := by
  induction l generalizing b with
  | nil => exact ⟨nofun, fun ⟨before, a, after, b', same, _⟩ => by simp at same⟩
  | cons x l ih =>
    rw [List.foldlM_cons, bind_eq_error]
    constructor
    · rintro (fails | ⟨mid, first, fails⟩)
      · exact ⟨[], x, l, b, rfl, rfl, fails⟩
      · obtain ⟨before, a, after, b', rfl, ran, fails⟩ := ih.1 fails
        exact ⟨x :: before, a, after, b', rfl,
          by rw [List.foldlM_cons]; exact bind_eq_ok.2 ⟨mid, first, ran⟩, fails⟩
    · rintro ⟨before, a, after, b', same, ran, fails⟩
      cases before with
      | nil =>
        cases same
        cases ran
        exact .inl fails
      | cons y before =>
        rw [List.cons_append, List.cons.injEq] at same
        obtain ⟨rfl, rfl⟩ := same
        rw [List.foldlM_cons] at ran
        obtain ⟨mid, first, ran⟩ := bind_eq_ok.1 ran
        exact .inr ⟨mid, first, ih.2 ⟨before, a, after, b', rfl, ran, fails⟩⟩

namespace Assembly

/-! ## Numbers that stop the reading -/

namespace Slots

/-- An item whose number cannot be read or written stops the reading. -/
inductive StepFault (s : Slots) : Item → NumeralError → Prop where
  /-- The label is a number that cannot be read. -/
  | label {name line : Text} {e : NumeralError} (number : name ≠ [] ∧ name.all isDigitLike = true)
      (unread : Numeral.read name = .error e) : StepFault s (.mark name line) e
  /-- The next free slot is too large to be written. -/
  | slot {first : Text} {more : List Text} (closed : s.closed = true)
      (long : Numeral.digitLimit < (Numeral.ofNat s.next).length) :
      StepFault s (.inst first more) .tooLargeToWrite
  /-- The result is a number that cannot be read. -/
  | result {first : Text} {more : List Text} {digits : Text} {e : NumeralError}
      (short : s.closed = true → (Numeral.ofNat s.next).length ≤ Numeral.digitLimit)
      (numbered : resultSlot? (textOf (first :: more)) = some digits)
      (unread : Numeral.read digits = .error e) : StepFault s (.inst first more) e

/-- The first item with such a number stops the reading of several. -/
inductive Fault : Slots → List Item → NumeralError → Prop where
  | here {s : Slots} {item : Item} {rest : List Item} {e : NumeralError} (fault : StepFault s item e) :
      Fault s (item :: rest) e
  | later {s mid : Slots} {item : Item} {name? : Option Text} {rest : List Item} {e : NumeralError}
      (step : Step s item name? mid) (fault : Fault mid rest e) : Fault s (item :: rest) e

theorem opened_eq_error_iff {s : Slots} {name : Text} {e : NumeralError} :
    s.opened name = .error e ↔
      (name ≠ [] ∧ name.all isDigitLike = true) ∧ Numeral.read name = .error e := by
  unfold opened
  split
  · rename_i number
    rw [bind_eq_error]
    constructor
    · rintro (unread | ⟨n, -, ⟨⟩⟩)
      exact ⟨number, unread⟩
    · exact fun ⟨_, unread⟩ => .inl unread
  · rename_i other
    exact ⟨nofun, fun h => absurd h.1 other⟩

theorem passed_eq_error_iff {s : Slots} {text : Text} {e : NumeralError} :
    s.passed text = .error e ↔
      ∃ digits, resultSlot? text = some digits ∧ Numeral.read digits = .error e := by
  unfold passed
  cases resultSlot? text with
  | none => simp
  | some digits => simp [bind_eq_error]

/-- A block whose number can be written is opened under it. -/
theorem exists_opened_ofNat (s : Slots) {n : Nat}
    (short : (Numeral.ofNat n).length ≤ Numeral.digitLimit) :
    ∃ t, s.opened (Numeral.ofNat n) = .ok t := by
  refine exists_opened_iff.2 fun _ _ => ⟨List.all_eq_true.2 fun c member => ?_, short⟩
  exact isDecimal_of_isDigit (Numeral.isDigit_of_mem_ofNat member)

/-- An instruction in an open block, or in one that can be opened, stops the reading where the number
of its result does. -/
theorem step_inst_eq_error_iff {s t : Slots} {first : Text} {more : List Text} {e : NumeralError}
    (opens : (s.closed = false ∧ s = t) ∨ s.closed = true ∧
      (Numeral.ofNat s.next).length ≤ Numeral.digitLimit ∧
      s.opened (Numeral.ofNat s.next) = .ok t) :
    s.step (.inst first more) = .error e ↔
      ∃ digits, resultSlot? (textOf (first :: more)) = some digits ∧
        Numeral.read digits = .error e := by
  rw [← @passed_eq_error_iff t]
  rcases opens with ⟨unclosed, rfl⟩ | ⟨closed, short, opened⟩
  · rw [step, unclosed, if_neg Bool.false_ne_true, bind_eq_error]
    exact ⟨fun h => h.resolve_right (by rintro ⟨_, -, ⟨⟩⟩), .inl⟩
  · have written : Numeral.write s.next = .ok (Numeral.ofNat s.next) := if_pos short
    rw [step, if_pos closed, written]
    show (s.opened (Numeral.ofNat s.next) >>= _) = _ ↔ _
    rw [opened]
    show (t.passed _ >>= _) = _ ↔ _
    rw [bind_eq_error]
    exact ⟨fun h => h.resolve_right (by rintro ⟨_, -, ⟨⟩⟩), .inl⟩

theorem step_mark_eq_error_iff {s : Slots} {name line : Text} {e : NumeralError} :
    s.step (.mark name line) = .error e ↔ s.opened name = .error e := by
  rw [step, bind_eq_error]
  exact ⟨fun h => h.resolve_right (by rintro ⟨_, -, ⟨⟩⟩), .inl⟩

/-- Where the number of the next block can be written, an instruction has a block to go to. -/
theorem exists_opens {s : Slots}
    (short : s.closed = true → (Numeral.ofNat s.next).length ≤ Numeral.digitLimit) :
    ∃ t, (s.closed = false ∧ s = t) ∨ s.closed = true ∧
      (Numeral.ofNat s.next).length ≤ Numeral.digitLimit ∧
      s.opened (Numeral.ofNat s.next) = .ok t := by
  cases closed : s.closed with
  | false => exact ⟨s, .inl ⟨rfl, rfl⟩⟩
  | true =>
    obtain ⟨t, opened⟩ := exists_opened_ofNat s (short closed)
    exact ⟨t, .inr ⟨rfl, short closed, opened⟩⟩

theorem step_eq_error_iff {s : Slots} {item : Item} {e : NumeralError} :
    s.step item = .error e ↔ StepFault s item e := by
  cases item with
  | gap line => constructor <;> rintro ⟨⟩
  | mark name line =>
    rw [step_mark_eq_error_iff, opened_eq_error_iff]
    constructor
    · rintro ⟨number, unread⟩
      exact .label number unread
    · rintro ⟨number, unread⟩
      exact ⟨number, unread⟩
  | inst first more =>
    by_cases long : s.closed = true ∧ Numeral.digitLimit < (Numeral.ofNat s.next).length
    · obtain ⟨closed, long⟩ := long
      have unwritten : Numeral.write s.next = .error .tooLargeToWrite := if_neg (by omega)
      rw [step, if_pos closed, unwritten]
      constructor
      · rintro ⟨⟩
        exact .slot closed long
      · rintro (_ | ⟨-, -⟩ | ⟨short, -, -⟩)
        · rfl
        · exact absurd (short closed) (by omega)
    · have short : s.closed = true → (Numeral.ofNat s.next).length ≤ Numeral.digitLimit :=
        fun closed => Nat.le_of_not_lt fun h => long ⟨closed, h⟩
      obtain ⟨t, opens⟩ := exists_opens short
      rw [step_inst_eq_error_iff opens]
      constructor
      · rintro ⟨digits, numbered, unread⟩
        exact .result short numbered unread
      · rintro (_ | ⟨closed, tooLong⟩ | ⟨-, numbered, unread⟩)
        · exact absurd ⟨closed, tooLong⟩ long
        · exact ⟨_, numbered, unread⟩

/-- Reading items stops at the first one with a number that cannot be read or written. -/
theorem openings_eq_error_iff {s : Slots} {items : List Item} {e : NumeralError} :
    s.openings items = .error e ↔ Fault s items e := by
  induction items generalizing s with
  | nil => exact ⟨nofun, nofun⟩
  | cons item items ih =>
    rw [openings, bind_eq_error, step_eq_error_iff]
    constructor
    · rintro (fault | ⟨⟨name?, mid⟩, step, h⟩)
      · exact .here fault
      · rcases bind_eq_error.1 h with fault | ⟨_, -, ⟨⟩⟩
        exact .later (step_iff.1 step) (ih.1 fault)
    · rintro (fault | ⟨step, fault⟩)
      · exact .inl fault
      · exact .inr ⟨_, step_iff.2 step, bind_eq_error.2 (.inl (ih.2 fault))⟩

end Slots

/-! ## Definitions that stop the reading -/

namespace Function

/-- The header names no function: no identifier with an opening parenthesis behind it stands behind
an at sign. -/
def Nameless (head : Text) : Prop := ∀ front rest, head = front ++ '@' :: rest →
  ∀ ident r, Ident.read? rest = some (ident, r) → (Text.dropBlank r).head? ≠ some '('

theorem nameless_cons {c : Char} {s : Text} : Nameless (c :: s) ↔
    (c = '@' → ∀ ident r, Ident.read? s = some (ident, r) →
      (Text.dropBlank r).head? ≠ some '(') ∧ Nameless s := by
  constructor
  · intro nameless
    exact ⟨fun mark => nameless [] s (by rw [mark]; rfl),
      fun front rest same => nameless (c :: front) rest (by rw [same]; rfl)⟩
  · rintro ⟨first, later⟩ front rest same
    cases front with
    | nil =>
      obtain ⟨mark, rfl⟩ := List.cons.inj same
      exact first mark
    | cons d front => exact later front rest (List.cons.inj same).2

theorem callee?_eq_none_iff {head : Text} : callee? head = none ↔ Nameless head := by
  induction head with
  | nil => exact ⟨fun _ front rest same => by simp at same, fun _ => rfl⟩
  | cons c s ih =>
    rw [callee?, Option.orElse_eq_or, Option.or_eq_none_iff, ih, nameless_cons]
    refine and_congr_left fun _ => ?_
    by_cases mark : c = '@'
    · subst mark
      rw [Text.dropPrefix?, if_pos rfl, Text.dropPrefix?]
      cases read : Ident.read? s with
      | none => simp [read]
      | some found =>
        obtain ⟨ident, r⟩ := found
        cases behind : Text.dropBlank r with
        | nil => simp [read, behind, Text.dropPrefix?]
        | cons d r' =>
          by_cases opens : d = '('
          · simp [read, behind, Text.dropPrefix?, opens]
          · simp [read, behind, Text.dropPrefix?, opens, Ne.symm opens]
    · simp [Text.dropPrefix?, mark, eq_comm]

/-- A definition is not read if its header names no function, or if a number in its body stops the
reading. -/
theorem ofLines_eq_error_iff {header body : List Text} {closing : Text} {e : ReadError} :
    ofLines header body closing = .error e ↔
      (Nameless (headerText header) ∧ e = .namelessFunction (headerText header).trim) ∨
      ¬ Nameless (headerText header) ∧ ∃ fault, e = .numeral fault ∧
        Slots.Fault ⟨parameterSlots header, true⟩ (Item.ofLines body) fault := by
  rw [← callee?_eq_none_iff, ofLines, parameterSlots]
  cases callee? (headerText header) with
  | none => simp [eq_comm]
  | some found =>
    obtain ⟨ident, rest⟩ := found
    simp only [reduceCtorEq, false_and, not_false_eq_true, true_and, false_or,
      ← Slots.openings_eq_error_iff]
    rw [Block.ofBody]
    cases Slots.openings ⟨slotCount (parameters rest), true⟩ (Item.ofLines body) with
    | error fault => simp [bind, Except.bind, eq_comm]
    | ok pairs => simp [bind, Except.bind]

end Function

namespace Chunk

/-- The line starts a definition. -/
def Starts (line : Text) : Prop := (Text.dropPrefix? "define " line.trim).isSome = true

/-- The lines of a header: the first one starts a definition, and the last one is the first that ends
with an opening brace. -/
structure Headed (header : List Text) : Prop where
  starts : ∃ line, header.head? = some line ∧ Starts line
  ends : ∃ before last, header = before ++ [last] ∧ endsHeader last = true ∧
    ∀ line ∈ before, endsHeader line = false

/-- The definition at the beginning of some lines is broken, and what is said of it. -/
inductive Broken (module : Text) : (ls : List Text) → (message : Text) → Prop where
  /-- No line ends the header. -/
  | header {line : Text} {rest : List Text} (starts : Starts line)
      (unended : ∀ l ∈ line :: rest, endsHeader l = false) :
      Broken module (line :: rest) ("unterminated function header in " ++ module.quoted)
  /-- No line behind the header closes the body. -/
  | body {header rest : List Text} (headed : Headed header)
      (unclosed : ∀ l ∈ rest, closesBody l = false) :
      Broken module (header ++ rest) ("unterminated function body in " ++ module.quoted)
  /-- The header names no function. -/
  | nameless {header body after : List Text} {closing : Text} (framed : Framed header body closing)
      (nameless : Function.Nameless (Function.headerText header)) :
      Broken module (header ++ body ++ closing :: after)
        ("unsupported function definition: " ++ (Function.headerText header).trim)

/-- The definition at the beginning of some lines has a number that cannot be read or written. -/
inductive Unnumbered : (ls : List Text) → NumeralError → Prop where
  | intro {header body after : List Text} {closing : Text} {e : NumeralError}
      (framed : Framed header body closing)
      (named : ¬ Function.Nameless (Function.headerText header))
      (fault : Slots.Fault ⟨Function.parameterSlots header, true⟩ (Item.ofLines body) e) :
      Unnumbered (header ++ body ++ closing :: after) e

/-- What a line that starts a definition begins. -/
theorem next_of_starts {line : Text} (starts : Starts line) (rest : List Text) :
    next line rest = match cutWhere? endsHeader (line :: rest) with
      | none => (openHeader (line :: rest), [])
      | some (before, last, after) =>
        match cutWhere? closesBody after with
        | none => (openBody (line :: rest), [])
        | some (body, closing, after) => (define (before ++ [last]) body closing, after) := by
  obtain ⟨r, found⟩ := Option.isSome_iff_exists.1 starts
  have said : ¬ (line.trim = [] ∨ line.trim.head? = some ';') := by
    rw [← Text.append_of_dropPrefix? found]
    simp
  unfold next
  rw [if_neg said]
  exact if_pos (show (Text.dropPrefix? "define " line.trim).isSome = true from starts)

/-- A line that starts a definition has no end of its header behind it, or no end of its body, or a
whole definition. -/
theorem next_cases {line : Text} {rest : List Text} (starts : Starts line) :
    ((∀ l ∈ line :: rest, endsHeader l = false) ∧
        next line rest = (openHeader (line :: rest), [])) ∨
      (∃ header behind, line :: rest = header ++ behind ∧ Headed header ∧
        (∀ l ∈ behind, closesBody l = false) ∧ next line rest = (openBody (line :: rest), [])) ∨
      ∃ header body closing after, line :: rest = header ++ body ++ closing :: after ∧
        Framed header body closing ∧ next line rest = (define header body closing, after) := by
  have read := next_of_starts starts rest
  cases head : cutWhere? endsHeader (line :: rest) with
  | none =>
    rw [head] at read
    exact .inl ⟨cutWhere?_eq_none_iff.1 head, read⟩
  | some found =>
    obtain ⟨before, last, behind⟩ := found
    obtain ⟨same, ends, none⟩ := cutWhere?_eq_some_iff.1 head
    simp only [head] at read
    cases body' : cutWhere? closesBody behind with
    | none =>
      rw [body'] at read
      have headed : Headed (before ++ [last]) :=
        ⟨⟨line, by cases before <;> cases same <;> rfl, starts⟩, before, last, rfl, ends, none⟩
      exact .inr (.inl ⟨_, behind, by simpa using same, headed, cutWhere?_eq_none_iff.1 body', read⟩)
    | some found =>
      obtain ⟨body, closing, after⟩ := found
      simp only [body'] at read
      obtain ⟨apart, -, -⟩ := cutWhere?_eq_some_iff.1 body'
      refine .inr (.inr ⟨_, body, closing, after, ?_, framed_of_next read, read⟩)
      rw [same, apart]
      simp

/-- A line that does not start a definition begins a part that can be read. -/
theorem isRead_of_not_starts {line : Text} (other : ¬ Starts line) (rest : List Text) :
    (next line rest).1.IsRead := by
  unfold next
  extract_lets trimmed
  split
  · trivial
  rw [if_neg (show ¬ (Text.dropPrefix? "define " trimmed).isSome = true from other)]
  repeat' split
  all_goals trivial

/-- Reading lines from the top gives some chunks and leaves the lines behind them. -/
inductive Passes : (ls : List Text) → (chunks : List Chunk) → (left : List Text) → Prop where
  | nil (ls : List Text) : Passes ls [] ls
  | cons {line : Text} {rest left : List Text} {chunks : List Chunk}
      (tail : Passes (next line rest).2 chunks left) :
      Passes (line :: rest) ((next line rest).1 :: chunks) left

theorem Passes.ofLines_eq {ls left : List Text} {chunks : List Chunk}
    (passes : Passes ls chunks left) : ofLines ls = chunks ++ ofLines left := by
  induction passes with
  | nil => rfl
  | cons _ ih => rw [ofLines_cons, ih, List.cons_append]

/-- Reading comes to each chunk. -/
theorem exists_passes {ls : List Text} {before after : List Chunk} {chunk : Chunk}
    (split : ofLines ls = before ++ chunk :: after) :
    ∃ line rest, Passes ls before (line :: rest) ∧ (next line rest).1 = chunk := by
  induction before generalizing ls with
  | nil =>
    cases ls with
    | nil =>
      rw [ofLines_nil] at split
      cases split
    | cons line rest =>
      rw [ofLines_cons, List.nil_append] at split
      exact ⟨line, rest, .nil _, (List.cons.inj split).1⟩
  | cons first before ih =>
    cases ls with
    | nil =>
      rw [ofLines_nil] at split
      cases split
    | cons l ls =>
      rw [ofLines_cons, List.cons_append] at split
      obtain ⟨rfl, behind⟩ := List.cons.inj split
      obtain ⟨line, rest, passes, same⟩ := ih behind
      exact ⟨line, rest, .cons passes, same⟩

end Chunk

namespace Module

open Chunk

variable {m : Module} {line message : Text} {rest : List Text}

/-- Where a chunk is rejected, its definition is broken or has a number that cannot be read or
written. -/
theorem add_next_eq_error {e : ReadError} (fails : m.add (next line rest).1 = .error e) :
    Broken m.name (line :: rest) e.message ∨
      ∃ fault, Unnumbered (line :: rest) fault ∧ fault.message = e.message := by
  have starts : Starts line := by
    by_contra other
    obtain ⟨m', added⟩ := (@exists_add_iff m _).2 (isRead_of_not_starts other rest)
    rw [added] at fails
    cases fails
  rcases @next_cases line rest starts with ⟨unended, read⟩ |
    ⟨header, behind, whole, headed, unclosed, read⟩ |
    ⟨header, body, closing, after, whole, framed, read⟩
  · rw [read] at fails
    cases fails
    exact .inl (.header starts unended)
  · rw [read] at fails
    cases fails
    rw [whole]
    exact .inl (.body headed unclosed)
  · rw [read, add] at fails
    have unread : Function.ofLines header body closing = .error e := by
      cases made : Function.ofLines header body closing with
      | error e' =>
        rw [made] at fails
        cases fails
        rfl
      | ok f =>
        rw [made] at fails
        cases fails
    rw [whole]
    rcases Function.ofLines_eq_error_iff.1 unread with ⟨nameless, rfl⟩ | ⟨named, fault, rfl, faults⟩
    · exact .inl (.nameless framed nameless)
    · exact .inr ⟨fault, .intro framed named faults, rfl⟩

/-- A definition whose function is not read is rejected. -/
theorem add_next_of_framed {header body after : List Text} {closing : Text} {e : ReadError}
    (framed : Framed header body closing)
    (unread : Function.ofLines header body closing = .error e) :
    ∃ line rest, header ++ body ++ closing :: after = line :: rest ∧
      m.add (next line rest).1 = .error e := by
  obtain ⟨line, first, -⟩ := framed.starts
  obtain ⟨header, rfl⟩ := List.head?_eq_some_iff.1 first
  refine ⟨line, header ++ body ++ [closing] ++ after, by simp, ?_⟩
  rw [next_of_framed framed, add, unread]
  rfl

/-- A broken definition is rejected, with what is said of it. -/
theorem add_next_of_broken {ls : List Text} (broken : Broken m.name ls message) :
    ∃ line rest e, ls = line :: rest ∧ m.add (next line rest).1 = .error e ∧
      e.message = message := by
  cases broken with
  | @header line rest starts unended =>
    refine ⟨line, rest, .openHeader m.name, rfl, ?_, rfl⟩
    rw [next_of_starts starts, cutWhere?_eq_none_iff.2 unended]
    rfl
  | @body header rest headed unclosed =>
    obtain ⟨⟨line, first, starts⟩, before, last, same, ends, none⟩ := headed
    obtain ⟨header, rfl⟩ := List.head?_eq_some_iff.1 first
    have head : cutWhere? endsHeader (line :: (header ++ rest)) = some (before, last, rest) := by
      refine cutWhere?_eq_some_iff.2 ⟨?_, ends, none⟩
      rw [← List.cons_append, same, List.append_assoc, List.singleton_append]
    refine ⟨line, header ++ rest, .openBody m.name, rfl, ?_, rfl⟩
    rw [next_of_starts starts, head]
    simp only [cutWhere?_eq_none_iff.2 unclosed]
    rfl
  | @nameless header body after closing framed nameless =>
    obtain ⟨line, rest, same, fails⟩ := @add_next_of_framed m _ _ after _ _ framed
      (Function.ofLines_eq_error_iff.2 (.inl ⟨nameless, rfl⟩))
    exact ⟨line, rest, _, same, fails, rfl⟩

/-- A number that cannot be read or written is said so. -/
theorem add_next_of_unnumbered {ls : List Text} {fault : NumeralError}
    (unnumbered : Unnumbered ls fault) :
    ∃ line rest, ls = line :: rest ∧ m.add (next line rest).1 = .error (.numeral fault) := by
  obtain ⟨framed, named, faults⟩ := unnumbered
  exact add_next_of_framed framed
    (Function.ofLines_eq_error_iff.2 (.inr ⟨named, fault, rfl, faults⟩))

/-- Reading from the top comes, behind parts that are all accepted, to lines of which something
holds. -/
def Reaches (text : Text) (p : List Text → Prop) : Prop :=
  ∃ before left, Passes text.lines before left ∧ (∀ chunk ∈ before, chunk.IsRead) ∧ p left

/-- The text is rejected, and this is said of it. -/
def Rejects (text name message : Text) : Prop :=
  ∃ e, ofText text name = .error e ∧ e.message = message

theorem Reaches.mono {text : Text} {p q : List Text → Prop} (reaches : Reaches text p)
    (weaker : ∀ left, p left → q left) : Reaches text q := by
  obtain ⟨before, left, passes, read, holds⟩ := reaches
  exact ⟨before, left, passes, read, weaker left holds⟩

/-- Of the module only its name matters to a failure. -/
theorem add_eq_error_of_name {m' : Module} (same : m.name = m'.name) {chunk : Chunk} {e : ReadError}
    (fails : m.add chunk = .error e) : m'.add chunk = .error e := by
  cases chunk with
  | define header body closing =>
    simp only [add] at fails ⊢
    cases made : Function.ofLines header body closing with
    | error e' =>
      rw [made] at fails
      cases fails
      rfl
    | ok f =>
      rw [made] at fails
      cases fails
  | openHeader => rw [add, ← same]; exact fails
  | openBody => rw [add, ← same]; exact fails
  | _ => cases fails

/-- A text is rejected where the first chunk is that cannot be put into the module. -/
theorem ofText_eq_error_iff {text name : Text} {e : ReadError} :
    ofText text name = .error e ↔ Reaches text fun left => ∃ line rest, left = line :: rest ∧
      add { name } (next line rest).1 = .error e := by
  have folded : ofText text name = .error e ↔
      (ofLines text.lines).foldlM add { name, text } = .error e := by
    rw [ofText]
    cases (ofLines text.lines).foldlM add { name, text } <;> simp [Except.map]
  rw [folded, foldlM_eq_error_iff]
  constructor
  · rintro ⟨before, chunk, after, m, split, read, fails⟩
    obtain ⟨line, rest, passes, rfl⟩ := exists_passes split
    exact ⟨before, line :: rest, passes, exists_foldlM_iff.1 ⟨m, read⟩, line, rest, rfl,
      @add_eq_error_of_name m { name } (name_text_of_foldlM read).1 _ _ fails⟩
  · rintro ⟨before, left, passes, accepted, line, rest, rfl, fails⟩
    obtain ⟨m, read⟩ := (@exists_foldlM_iff { name, text } before).2 accepted
    refine ⟨before, _, _, m, passes.ofLines_eq.trans (congrArg _ (ofLines_cons line rest)), read, ?_⟩
    exact @add_eq_error_of_name { name } m (name_text_of_foldlM read).1.symm _ _ fails

/-- What is said of a broken definition is never said of a number. -/
theorem message_ne_of_broken {name : Text} {ls : List Text} (broken : Broken name ls message)
    (fault : NumeralError) : fault.message ≠ message := by
  have first : message.head? = some 'u' := by
    cases broken <;> rfl
  have other : fault.message.head? ≠ some 'u' := by
    cases fault with
    | malformed => exact fun same => absurd (Option.some.inj same) (by decide)
    | tooManyDigits => exact fun same => absurd (Option.some.inj same) (by decide)
    | tooLargeToWrite => decide
  intro same
  rw [same] at other
  exact other first

/-- **Which texts are rejected.** Reading a text fails, and this is said of it, if and only if it comes
to a definition whose header is not ended, whose body is not closed or whose header names no function,
or that has a number which cannot be read or written. So broken definitions are all that is rejected,
with what is to be said of them, exactly for the texts in which reading comes to no such number. -/
theorem rejects_iff (text name : Text) :
    (∀ message, Rejects text name message ↔ Reaches text fun left =>
      Broken name left message ∨ ∃ fault, Unnumbered left fault ∧ fault.message = message) ∧
    ((∀ message, Rejects text name message ↔ Reaches text fun left => Broken name left message) ↔
      ∀ fault, ¬ Reaches text fun left => Unnumbered left fault) := by
  have all : ∀ message, Rejects text name message ↔ Reaches text fun left =>
      Broken name left message ∨ ∃ fault, Unnumbered left fault ∧ fault.message = message := by
    intro message
    constructor
    · rintro ⟨e, fails, rfl⟩
      refine (ofText_eq_error_iff.1 fails).mono ?_
      rintro left ⟨line, rest, rfl, fails⟩
      exact add_next_eq_error fails
    · rintro ⟨before, left, passes, read, broken | ⟨fault, unnumbered, rfl⟩⟩
      · obtain ⟨line, rest, e, rfl, fails, said⟩ := @add_next_of_broken { name } _ _ broken
        exact ⟨e, ofText_eq_error_iff.2 ⟨before, _, passes, read, line, rest, rfl, fails⟩, said⟩
      · obtain ⟨line, rest, rfl, fails⟩ := @add_next_of_unnumbered { name } _ _ unnumbered
        exact ⟨_, ofText_eq_error_iff.2 ⟨before, _, passes, read, line, rest, rfl, fails⟩, rfl⟩
  refine ⟨all, fun only fault reaches => ?_, fun none message => ?_⟩
  · have rejects := (all fault.message).2 (reaches.mono fun left h => .inr ⟨fault, h, rfl⟩)
    obtain ⟨_, _, _, _, broken⟩ := (only _).1 rejects
    exact message_ne_of_broken broken fault rfl
  · rw [all]
    constructor
    · rintro ⟨before, left, passes, read, broken | ⟨fault, unnumbered, -⟩⟩
      · exact ⟨before, left, passes, read, broken⟩
      · exact absurd ⟨before, left, passes, read, unnumbered⟩ (none fault)
    · exact fun reaches => reaches.mono fun left h => .inl h

/-- A function whose label is a digit, but no decimal one. -/
def superscriptText : Text := "define void @f() \x7b\n\"²\":\n  ret void\n\x7d\n"

/-- The label is taken for a number and cannot be read, so a text without a broken definition is
rejected. -/
theorem rejects_superscript :
    Rejects superscriptText "stdin" "invalid literal for int() with base 10: '²'" ∧
      ¬ ∀ text name message, Rejects text name message ↔
        Reaches text fun left => Broken name left message := by
  have rejects : Rejects superscriptText "stdin" "invalid literal for int() with base 10: '²'" := by
    have error : (ofText superscriptText).map (·.name) = .error (.numeral (.malformed ['²'])) := by
      decide +kernel
    refine ⟨.numeral (.malformed ['²']), ?_, by decide +kernel⟩
    cases read : ofText superscriptText with
    | error e =>
      rw [read] at error
      cases error
      rfl
    | ok m =>
      rw [read] at error
      cases error
  refine ⟨rejects, fun all => ?_⟩
  obtain ⟨_, _, _, _, broken⟩ := (all _ _ _).1 rejects
  exact message_ne_of_broken broken (.malformed ['²']) (by decide +kernel)

end Module

end Assembly

end FlowReport
