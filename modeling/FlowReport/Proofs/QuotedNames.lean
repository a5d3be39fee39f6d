import FlowReport.Proofs.EntryBlocks
import FlowReport.Proofs.RoundTrip

/-!
# Quoted names

A name between quotes may hold everything that means something around it: parentheses, commas,
percent signs, colons, semicolons. It is read back as it was written, for a function as for a label,
and which name it is changes nothing else of what is read. There is one exception: the debug reference
of a function is looked for in its whole header, so a name that holds such a reference brings it in.
-/

namespace FlowReport.Assembly

/-! ## Debug references -/

theorem metadataRef?_append_cons {s : Text} {c : Char} (other : c ≠ '!')
    (nondigit : isDecimal c = false) (t : Text) :
    (metadataRef? (s ++ c :: t)).map (·.1) = (metadataRef? s).map (·.1) := by
  cases s with
  | nil =>
    rw [List.nil_append, metadataRef?]
    · rfl
    · rintro r ⟨⟩
      exact other rfl
  | cons d s =>
    by_cases mark : d = '!'
    · subst mark
      have digits : (s ++ c :: t).takeWhile isDecimal = s.takeWhile isDecimal := by
        rw [List.takeWhile_append]
        split
        · rename_i all
          rw [List.takeWhile_cons_of_neg (by simp [nondigit]), List.append_nil]
          exact (List.takeWhile_prefix isDecimal).eq_of_length all |>.symm
        · rfl
      rw [List.cons_append, metadataRef?, metadataRef?, digits]
      cases s.takeWhile isDecimal <;> rfl
    · rw [List.cons_append, metadataRef?, metadataRef?]
      · rintro r ⟨⟩
        exact mark rfl
      · rintro r ⟨⟩
        exact mark rfl

/-- Nothing that a debug reference is made of reaches over such a character. -/
structure Separates (c : Char) : Prop where
  foreign : c ∉ "!dbg".toList
  nonblank : isBlank c = false
  nondigit : isDecimal c = false

/-- The first debug reference is the first one before or behind the character. -/
theorem debugRef?_append_cons {c : Char} (separates : Separates c) (s t : Text) :
    debugRef? (s ++ c :: t) = (debugRef? s).or (debugRef? t) := by
  obtain ⟨foreign, nonblank, nondigit⟩ := separates
  have other : c ≠ '!' := fun same => foreign (same ▸ List.mem_cons_self)
  induction s with
  | nil =>
    have none : Text.dropPrefix? "!dbg" (c :: t) = none := if_neg other.symm
    have later : debugRef? (c :: t) = debugRef? t := by
      rw [debugRef?, none]
      rfl
    exact later
  | cons d s ih =>
    have prefix' := Text.dropPrefix?_append_cons (s := d :: s) foreign t
    rw [List.cons_append] at prefix'
    rw [List.cons_append, debugRef?, debugRef?, prefix', ih]
    cases Text.dropPrefix? "!dbg" (d :: s) with
    | none => rfl
    | some r =>
      simp only [Option.map_some, Option.bind_eq_bind, Option.bind_some]
      rw [Text.dropBlank_append_cons nonblank, metadataRef?_append_cons other nondigit]
      simp only [List.length_append, List.length_cons, Nat.add_right_cancel_iff]
      split
      · rfl
      · cases metadataRef? (Text.dropBlank r) <;> rfl

/-! ## Lines behind closed instructions -/

/-- The brackets that are open behind some lines of a body. While they are open every line belongs to
the instruction; a mark or a gap opens none. -/
def openBehind : (balance : Int) → List Text → Int
  | balance, [] => balance
  | balance, line :: rest =>
    if 0 < balance then openBehind (balance + Item.weight line) rest
    else if IsMark line ∨ IsGap line then openBehind 0 rest
    else openBehind (Item.weight line) rest

/-- Brackets that are closed stay so where no line follows that opens others. -/
theorem openBehind_of_closed {balance : Int} (closed : balance ≤ 0) {ls : List Text}
    (shut : openBehind balance ls ≤ 0) : openBehind 0 ls ≤ 0 := by
  cases ls with
  | nil => exact Int.le_refl 0
  | cons line rest =>
    rw [openBehind, if_neg (by omega)] at shut
    rwa [openBehind, if_neg (by decide)]

/-- What an open instruction takes closes it, and the lines behind that are closed too. -/
theorem takeOpen_of_shut {balance : Int} {ls : List Text} (shut : openBehind balance ls ≤ 0) :
    balance + ((takeOpen Item.weight balance ls).1.map Item.weight).sum ≤ 0 ∧
      openBehind 0 (takeOpen Item.weight balance ls).2 ≤ 0 := by
  induction ls generalizing balance with
  | nil => exact ⟨by simpa [takeOpen, openBehind] using shut, Int.le_refl 0⟩
  | cons line rest ih =>
    by_cases still : 0 < balance
    · rw [openBehind, if_pos still] at shut
      simp only [takeOpen, still, if_true, List.map_cons, List.sum_cons, ← Int.add_assoc]
      exact ih shut
    · simp only [takeOpen, still, if_false, List.map_nil, List.sum_nil, Int.add_zero]
      exact ⟨by omega, openBehind_of_closed (by omega) shut⟩

/-- Behind closed instructions the lines of a body are read anew. -/
theorem Item.ofLines_append {front : List Text} (shut : openBehind 0 front ≤ 0)
    (back : List Text) : ofLines (front ++ back) = ofLines front ++ ofLines back := by
  fun_induction ofLines front with
  | case1 => rfl
  | case2 line rest item single ih =>
    obtain ⟨-, -, alone⟩ := lines_of_ofLine? single
    rw [openBehind, if_neg (by decide), if_pos alone] at shut
    rw [List.cons_append, ofLines_some single, ih shut, List.cons_append]
  | case3 line rest starts more ih =>
    rw [openBehind, if_neg (by decide), if_neg (not_mark_of_ofLine? starts)] at shut
    obtain ⟨closed, others⟩ := takeOpen_of_shut shut
    rw [List.cons_append, ofLines_none starts, takeOpen_append_of_closed closed, ih others,
      List.cons_append]

/-- Where a block opens, the blocks before it are whole. -/
theorem Block.group_append (front : List (Item × Option Text)) (item : Item) (name : Text)
    (back : List (Item × Option Text)) (pos : Nat) :
    (group pos (front ++ (item, some name) :: back)).1 = (group pos front).1 ∧
      (group pos (front ++ (item, some name) :: back)).2 = (group pos front).2 ++
        (group (pos + (front.flatMap (·.1.lines)).length) ((item, some name) :: back)).2 := by
  induction front generalizing pos with
  | nil => exact ⟨rfl, rfl⟩
  | cons pair front ih =>
    obtain ⟨first, name?⟩ := pair
    obtain ⟨head, blocks⟩ := ih (pos + first.lines.length)
    simp only [List.cons_append, List.flatMap_cons, List.length_append, ← Nat.add_assoc]
    cases name? with
    | none =>
      simp only [group, head, true_and]
      exact blocks
    | some own => exact ⟨rfl, by simp only [group, head, blocks, List.cons_append]⟩

/-! ## Definitions between other lines -/

/-- The chunk of a definition behind other chunks. -/
theorem Chunk.ofLines_define {before header body after : List Text} {closing : Text}
    (top : ∀ chunk ∈ ofLines before, chunk.isComplete = true)
    (framed : Framed header body closing) :
    ofLines (before ++ (header ++ body ++ [closing] ++ after)) =
      ofLines before ++ define header body closing :: ofLines after := by
  obtain ⟨line, head, -⟩ := framed.starts
  obtain ⟨header, rfl⟩ := List.head?_eq_some_iff.1 head
  rw [ofLines_append top, List.cons_append, List.cons_append, List.cons_append, ofLines_cons,
    next_of_framed framed]

namespace Module

/-- A text is read in three parts: what stands before a definition, the definition, and what stands
behind it. -/
theorem ofText_define {text : Text} {before header body after : List Text} {closing : Text}
    (lines : text.lines = before ++ (header ++ body ++ [closing] ++ after))
    (top : ∀ chunk ∈ Chunk.ofLines before, chunk.isComplete = true)
    (framed : Chunk.Framed header body closing) (name : Text) : ofText text name = (do
      let m₁ ← (Chunk.ofLines before).foldlM add { name }
      let f ← Function.ofLines header body closing
      let m₂ ← (Chunk.ofLines after).foldlM add { name }
      .ok { m₁.followedBy m₂ with text, funcs := m₁.funcs ++ f :: m₂.funcs }.resolved) := by
  rw [ofText, lines, Chunk.ofLines_define top framed, List.foldlM_append,
    show (Chunk.ofLines before).foldlM add { name, text } = _ from
      foldlM_text { name } text (Chunk.ofLines before)]
  cases first : (Chunk.ofLines before).foldlM add { name } with
  | error e => rfl
  | ok m₁ =>
    obtain ⟨named, kept⟩ := name_text_of_foldlM first
    show (((Chunk.define header body closing :: Chunk.ofLines after).foldlM add
      { m₁ with text }).map resolved) = Function.ofLines header body closing >>= _
    rw [List.foldlM_cons, add]
    cases Function.ofLines header body closing with
    | error e => rfl
    | ok f =>
      -- what stands behind is read as if it stood alone
      have alone : ({ m₁ with funcs := m₁.funcs ++ [f] } : Module) =
          followedBy { m₁ with funcs := m₁.funcs ++ [f] } { name } := by
        simp [followedBy, Table.updated, Table.get?, named, kept]
      have keyed : Keyed { m₁ with funcs := m₁.funcs ++ [f] } :=
        { ((keyed_empty name []).foldlM first) with }
      show (((Chunk.ofLines after).foldlM add
        { m₁ with text, funcs := m₁.funcs ++ [f] }).map resolved) =
          (Chunk.ofLines after).foldlM add { name } >>= _
      rw [show (Chunk.ofLines after).foldlM add { m₁ with text, funcs := m₁.funcs ++ [f] } = _ from
        foldlM_text { m₁ with funcs := m₁.funcs ++ [f] } text (Chunk.ofLines after), alone,
        foldlM_followedBy keyed]
      cases (Chunk.ofLines after).foldlM add { name } with
      | error e => rfl
      | ok m₂ =>
        show Except.ok (resolved _) = Except.ok (resolved _)
        simp [followedBy]

/-- The modules are the same but for their texts and for one function, of which the relation holds. -/
def DifferIn (R : Function → Function → Prop) (m m' : Module) : Prop :=
  ∃ before f f' after, m.funcs = before ++ f :: after ∧ m'.funcs = before ++ f' :: after ∧ R f f' ∧
    { m' with text := m.text, funcs := m.funcs } = m

/-- Two texts that differ in one definition are read alike if the definitions are. -/
theorem alike_ofText {R : Function → Function → Prop} {text text' : Text}
    {before header header' body body' after : List Text} {closing : Text}
    (lines : text.lines = before ++ (header ++ body ++ [closing] ++ after))
    (lines' : text'.lines = before ++ (header' ++ body' ++ [closing] ++ after))
    (top : ∀ chunk ∈ Chunk.ofLines before, chunk.isComplete = true)
    (framed : Chunk.Framed header body closing) (framed' : Chunk.Framed header' body' closing)
    (alike : Alike (fun f f' => ∀ m : Module, R (m.locateFunction f) (m.locateFunction f'))
      (Function.ofLines header body closing) (Function.ofLines header' body' closing))
    (name : Text) : Alike (DifferIn R) (ofText text name) (ofText text' name) := by
  rw [ofText_define lines top framed, ofText_define lines' top framed']
  cases (Chunk.ofLines before).foldlM add { name } with
  | error e => exact .error e
  | ok m₁ =>
    generalize Function.ofLines header body closing = read at alike
    generalize Function.ofLines header' body' closing = read' at alike
    cases alike with
    | error e => exact .error e
    | @ok f f' related =>
      cases (Chunk.ofLines after).foldlM add { name } with
      | error e => exact .error e
      | ok m₂ =>
        refine .ok ⟨m₁.funcs.map (m₁.followedBy m₂).locateFunction,
          (m₁.followedBy m₂).locateFunction f, (m₁.followedBy m₂).locateFunction f',
          m₂.funcs.map (m₁.followedBy m₂).locateFunction, ?_, ?_, related _, rfl⟩
        · exact List.map_append.trans rfl
        · exact List.map_append.trans rfl

end Module

/-! ## Names of functions -/

/-- Lines with a place for the name of a function: the header of a definition up to the `@`, and what
stands in it behind the parenthesis behind the name. -/
structure FunctionPlace where
  before : List Text
  front : Text
  rest : Text
  body : List Text
  closing : Text
  after : List Text
  starts : (Text.dropPrefix? "define " front).isSome = true
  unmarked : '@' ∉ front
  opens : rest.getLast? = some '{'
  inner : ∀ line ∈ body, Chunk.closesBody line = false
  closes : Chunk.closesBody closing = true
  top : ∀ chunk ∈ Chunk.ofLines before, chunk.isComplete = true

namespace FunctionPlace

variable (p : FunctionPlace) (s : Text)

/-- The header with a name. -/
def header : Text := p.front ++ '@' :: (written (Utf8.encode s) ++ '(' :: p.rest)

/-- The lines with a name. -/
def lines : List Text := p.before ++ ([p.header s] ++ p.body ++ [p.closing] ++ p.after)

theorem exists_header : ∃ middle, p.header s = "define ".toList ++ (middle ++ ['{']) := by
  obtain ⟨more, front⟩ := Option.isSome_iff_exists.1 p.starts
  obtain ⟨init, rest⟩ := List.getLast?_eq_some_iff.1 p.opens
  refine ⟨more ++ '@' :: (written (Utf8.encode s) ++ '(' :: init), ?_⟩
  rw [header, rest, ← Text.append_of_dropPrefix? front]
  simp only [List.append_assoc, List.cons_append]

theorem solid_header : Solid (p.header s) := by
  obtain ⟨middle, same⟩ := p.exists_header s
  rw [same]
  exact (Solid.singleton (by decide)).append ("efine ".toList ++ middle) (.singleton (by decide))

theorem framed : Chunk.Framed [p.header s] p.body p.closing where
  starts := by
    refine ⟨p.header s, rfl, ?_⟩
    obtain ⟨middle, same⟩ := p.exists_header s
    rw [(p.solid_header s).trim.2, same, Text.dropPrefix?_append]
    rfl
  header := by
    refine ⟨[], p.header s, rfl, ?_, nofun⟩
    obtain ⟨middle, same⟩ := p.exists_header s
    rw [Chunk.endsHeader, same, ← List.append_assoc, Text.dropBlankEnd_append_cons (by decide)]
    exact decide_eq_true (List.getLast?_concat ..)
  body := p.inner
  closing := p.closes

theorem headerText_header : Function.headerText [p.header s] = p.header s :=
  (p.solid_header s).trim.2

/-- The function that is read of a definition under a name, with these blocks. -/
def function (blocks : List Block) : Function where
  name := s
  header := [p.header s]
  body := p.body
  closing := p.closing
  blocks := blocks
  dbg := debugRef? (p.header s)

end FunctionPlace

/-- A text of ASCII characters. -/
def IsAscii (s : Text) : Prop := ∀ c ∈ s, c.toNat < 0x80

instance (s : Text) : Decidable (IsAscii s) := List.decidableBAll (fun c : Char => c.toNat < 0x80) s

theorem unescape_escapeText_of_ascii {s : Text} (ascii : IsAscii s) :
    unescape (escapeText s) = s := by
  rw [escapeText, unescape_escape, Utf8.bytewise_encode_eq_iff.2 ascii]

namespace FunctionPlace

variable (p : FunctionPlace) {s : Text}

/-- A definition is read with the name that was written; its parameters are those behind the name. -/
theorem ofLines_header (ascii : IsAscii s) : Function.ofLines [p.header s] p.body p.closing =
    match Block.ofBody (Function.slotCount (Function.parameters p.rest)) 1 p.body with
    | .error e => .error (.numeral e)
    | .ok blocks => .ok (p.function s blocks) := by
  have callee : Function.callee? (p.header s) = some (.quoted (escapeText s), p.rest) :=
    Function.callee?_append p.unmarked (.quoted (Utf8.encode s)) p.rest
  rw [Function.ofLines, headerText_header, callee]
  simp only [List.length_singleton, Ident.name, unescape_escapeText_of_ascii ascii]
  rfl

/-- The debug reference of a function is looked for in its name too. -/
theorem debugRef?_header (s : Text) : debugRef? (p.header s) =
    ((debugRef? p.front).or (debugRef? (escapeText s))).or (debugRef? p.rest) := by
  have mark : Separates '@' := ⟨by decide, by decide, by decide⟩
  have quote : Separates '"' := ⟨by decide, by decide, by decide⟩
  have paren : Separates '(' := ⟨by decide, by decide, by decide⟩
  have name : written (Utf8.encode s) ++ '(' :: p.rest =
      [] ++ '"' :: (escapeText s ++ '"' :: ([] ++ '(' :: p.rest)) := by
    simp [written, escapeText]
  rw [header, name, debugRef?_append_cons mark, debugRef?_append_cons quote,
    debugRef?_append_cons quote, debugRef?_append_cons paren, Option.or_assoc]
  rfl

/-- What is read of the definition under a name. -/
structure Reads (s : Text) (f : Function) : Prop where
  name : f.name = s
  header : f.header = [p.header s]
  body : f.body = p.body
  /-- The parameters are read from behind the name, so the blocks do not depend on it. -/
  blocks : ∃ (m : Module) (blocks : List Block),
    Block.ofBody (Function.slotCount (Function.parameters p.rest)) 1 p.body = .ok blocks ∧
      f.blocks = blocks.map m.locateBlock
  /-- The debug reference is the one behind the name exactly if there is none in front of it or in
  the name, or it is the same. -/
  dbg : f.dbg = debugRef? p.rest ↔
    ∀ ref, (debugRef? p.front).or (debugRef? (escapeText s)) = some ref →
      debugRef? p.rest = some ref

/-- The functions are the same but for their names, the headers that hold these, and what these bring
in for a debug reference. -/
structure Renamed (s t : Text) (f f' : Function) : Prop where
  first : p.Reads s f
  second : p.Reads t f'
  rest : { f' with name := f.name, header := f.header, dbg := f.dbg } = f

theorem reads_function {blocks : List Block}
    (read : Block.ofBody (Function.slotCount (Function.parameters p.rest)) 1 p.body = .ok blocks)
    (m : Module) : p.Reads s (m.locateFunction (p.function s blocks)) where
  name := rfl
  header := rfl
  body := rfl
  blocks := ⟨m, blocks, read, rfl⟩
  dbg := by
    rw [show (m.locateFunction (p.function s blocks)).dbg = debugRef? (p.header s) from rfl,
      debugRef?_header]
    cases (debugRef? p.front).or (debugRef? (escapeText s)) with
    | none => simp
    | some ref => simp [eq_comm]

/-- Two texts that differ in the name of a function only are read alike. -/
theorem alike_ofText {s t text text' : Text} (ascii : IsAscii s) (ascii' : IsAscii t)
    (lines : text.lines = p.lines s) (lines' : text'.lines = p.lines t) (name : Text) :
    Alike (Module.DifferIn (p.Renamed s t)) (Module.ofText text name)
      (Module.ofText text' name) := by
  refine Module.alike_ofText lines lines' p.top (p.framed s) (p.framed t) ?_ name
  rw [p.ofLines_header ascii, p.ofLines_header ascii']
  cases read : Block.ofBody (Function.slotCount (Function.parameters p.rest)) 1 p.body with
  | error e => exact .error _
  | ok blocks => exact .ok fun m => ⟨p.reads_function read m, p.reads_function read m, rfl⟩

end FunctionPlace

/-! ## Labels -/

/-- The line of a label with a quoted name. -/
def IsLabel (s line : Text) : Prop :=
  ∃ indent after, (∀ c ∈ indent, isBlank c = true) ∧ Layout.Label.Ends after ∧
    line = indent ++ (written (Utf8.encode s) ++ ':' :: after)

/-- The line is a mark, if the name is ASCII. -/
theorem IsLabel.ofLine? {s line : Text} (label : IsLabel s line) (ascii : IsAscii s) :
    Item.ofLine? line = some (.mark s line) := by
  obtain ⟨indent, after, blank, ends, rfl⟩ := label
  have colon : ∀ c ∈ (':' :: after).head?, isBare c = false := by simp; decide
  have read := Name.read?_text (.quoted (Utf8.encode s)) colon
  have mark := Layout.ofLine?_ident (c := '"') blank rfl (by decide) read ends
  rwa [show Ident.name _ = unescape (escapeText s) from rfl, unescape_escapeText_of_ascii ascii]
    at mark

/-- Nor does it close a body. -/
theorem IsLabel.closesBody {s line : Text} (label : IsLabel s line) :
    Chunk.closesBody line = false := by
  obtain ⟨indent, after, blank, -, rfl⟩ := label
  refine decide_eq_false fun same => ?_
  have head := Text.head?_trim (indent ++ (written (Utf8.encode s) ++ ':' :: after))
  rw [same, Text.dropBlank_append blank] at head
  exact absurd (Option.some.inj head) (by decide)

/-- Lines with a place for a label in the body of a definition: no instruction is open in front of
it. -/
structure LabelPlace where
  before : List Text
  header : List Text
  front : List Text
  back : List Text
  closing : Text
  after : List Text
  framed : Chunk.Framed header (front ++ back) closing
  shut : openBehind 0 front ≤ 0
  top : ∀ chunk ∈ Chunk.ofLines before, chunk.isComplete = true

namespace LabelPlace

variable (p : LabelPlace)

/-- The body with a line at the place. -/
def body (line : Text) : List Text := p.front ++ line :: p.back

/-- The lines with a line at the place. -/
def lines (line : Text) : List Text :=
  p.before ++ (p.header ++ p.body line ++ [p.closing] ++ p.after)

theorem framed_body {s line : Text} (label : IsLabel s line) :
    Chunk.Framed p.header (p.body line) p.closing :=
  { p.framed with
    body := by
      obtain ⟨front, back⟩ := List.forall_mem_append.1 p.framed.body
      exact List.forall_mem_append.2 ⟨front, List.forall_mem_cons.2 ⟨label.closesBody, back⟩⟩ }

/-- The functions are the same but for the line of a label and the name of the block that it opens,
which begins with this line. -/
structure Relabelled (s line t line' : Text) (f f' : Function) : Prop where
  header : f.header = p.header
  body : f.body = p.body line ∧ f'.body = p.body line'
  blocks : ∃ (before : List Block) (b : Block) (after : List Block),
    b.first = p.header.length + p.front.length ∧
      f.blocks = before ++ { b with name := s, lines := line :: b.lines } :: after ∧
      f'.blocks = before ++ { b with name := t, lines := line' :: b.lines } :: after
  rest : { f' with body := f.body, blocks := f.blocks } = f

end LabelPlace

/-- A name that is no number takes no slot. -/
theorem Slots.opened_word {slots : Slots} {s : Text} (word : s = [] ∨ ∃ c ∈ s, ¬ c.isDigit)
    (ascii : IsAscii s) : slots.opened s = .ok ⟨slots.next, false⟩ := by
  refine if_neg ?_
  rintro ⟨nonempty, all⟩
  rcases word with rfl | ⟨c, member, other⟩
  · exact nonempty rfl
  · exact other (isDigit_of_ascii (ascii c member) (List.all_eq_true.1 all c member))

/-- Two marks whose names are no numbers leave the same slots behind them. -/
theorem Slots.alike_openings {s t : Text}
    (word : ∀ slots : Slots, slots.opened s = .ok ⟨slots.next, false⟩)
    (word' : ∀ slots : Slots, slots.opened t = .ok ⟨slots.next, false⟩)
    (line line' : Text) (slots : Slots) (front back : List Item) :
    Alike (fun pairs pairs' => ∃ before after, before.map (·.1) = front ∧
        pairs = before ++ (.mark s line, some s) :: after ∧
        pairs' = before ++ (.mark t line', some t) :: after)
      (slots.openings (front ++ .mark s line :: back))
      (slots.openings (front ++ .mark t line' :: back)) := by
  induction front generalizing slots with
  | nil =>
    have here : ∀ {name line : Text}, (∀ slots : Slots, slots.opened name = .ok ⟨slots.next, false⟩) →
        slots.openings (.mark name line :: back) = (openings ⟨slots.next, false⟩ back).map
          ((.mark name line, some name) :: ·) := by
      intro name line word
      rw [openings, step, word]
      show (openings ⟨slots.next, false⟩ back >>= fun after =>
        .ok ((.mark name line, some name) :: after)) = _
      cases openings ⟨slots.next, false⟩ back <;> rfl
    rw [List.nil_append, List.nil_append, here word, here word']
    cases openings ⟨slots.next, false⟩ back with
    | error e => exact .error e
    | ok after => exact .ok ⟨[], after, rfl, rfl, rfl⟩
  | cons item front ih =>
    rw [List.cons_append, List.cons_append, openings, openings]
    cases slots.step item with
    | error e => exact .error e
    | ok step =>
      have later := ih step.2
      show Alike _ (step.2.openings _ >>= _) (step.2.openings _ >>= _)
      generalize step.2.openings (front ++ .mark s line :: back) = read at later
      generalize step.2.openings (front ++ .mark t line' :: back) = read' at later
      cases later with
      | error e => exact .error e
      | ok related =>
        obtain ⟨before, after, same, rfl, rfl⟩ := related
        exact .ok ⟨(item, step.1) :: before, after, by rw [List.map_cons, same], rfl, rfl⟩

/-- The block that a mark opens is the one that its items would be without it, but for its name and
the line in front. -/
theorem Block.ofItems_mark (name line : Text) (first : Nat) (items : List Item) :
    ofItems name first (.mark name line :: items) =
      { ofItems [] first items with name, lines := line :: (ofItems [] first items).lines } := by
  rw [ofItems, withoutGaps_cons rfl]
  rfl

/-- A mark divides the blocks. In front of the block that it opens and behind it, neither its name nor
its line matters. -/
theorem Block.exists_group_mark (first : Nat) (before after : List (Item × Option Text)) :
    ∃ b : Block, b.first = first + (before.flatMap (·.1.lines)).length ∧ ∀ name line : Text,
      (group first (before ++ (.mark name line, some name) :: after)).2 = (group first before).2 ++
        { b with name, lines := line :: b.lines } :: (group (b.first + 1) after).2 := by
  refine ⟨ofItems [] (first + (before.flatMap (·.1.lines)).length)
    (group (first + (before.flatMap (·.1.lines)).length + 1) after).1, rfl, fun name line => ?_⟩
  rw [(group_append before _ name after first).2, ← ofItems_mark name line]
  rfl

namespace LabelPlace

variable (p : LabelPlace) {s t line line' : Text}

/-- The blocks of the body are the same but for the one that the label opens. -/
theorem alike_ofBody (label : Item.ofLine? line = some (.mark s line))
    (label' : Item.ofLine? line' = some (.mark t line'))
    (word : ∀ slots : Slots, slots.opened s = .ok ⟨slots.next, false⟩)
    (word' : ∀ slots : Slots, slots.opened t = .ok ⟨slots.next, false⟩) (slot first : Nat) :
    Alike (fun blocks blocks' => ∃ (before : List Block) (b : Block) (after : List Block),
        b.first = first + p.front.length ∧
          blocks = before ++ { b with name := s, lines := line :: b.lines } :: after ∧
          blocks' = before ++ { b with name := t, lines := line' :: b.lines } :: after)
      (Block.ofBody slot first (p.body line)) (Block.ofBody slot first (p.body line')) := by
  have items : ∀ {name line : Text}, Item.ofLine? line = some (.mark name line) →
      Item.ofLines (p.body line) =
        Item.ofLines p.front ++ .mark name line :: Item.ofLines p.back := by
    intro name line mark
    rw [body, Item.ofLines_append p.shut, Item.ofLines_some mark]
  have alike := Slots.alike_openings word word' line line' ⟨slot, true⟩
    (Item.ofLines p.front) (Item.ofLines p.back)
  rw [Block.ofBody, Block.ofBody, items label, items label']
  generalize Slots.openings ⟨slot, true⟩ _ = read at alike
  generalize Slots.openings ⟨slot, true⟩ _ = read' at alike
  cases alike with
  | error e => exact .error e
  | ok related =>
    obtain ⟨before, after, same, rfl, rfl⟩ := related
    have place : (before.flatMap (·.1.lines)).length = p.front.length := by
      have whole := Item.flatMap_lines_ofLines p.front
      rw [← same, List.flatMap_map] at whole
      rw [whole]
    obtain ⟨b, stands, grouped⟩ := Block.exists_group_mark first before after
    rw [place] at stands
    exact .ok ⟨_, b, _, stands, grouped s line, grouped t line'⟩

/-- Two texts that differ in a label only are read alike. -/
theorem alike_ofText {text text' : Text} (ascii : IsAscii s) (ascii' : IsAscii t)
    (word : s = [] ∨ ∃ c ∈ s, ¬ c.isDigit) (word' : t = [] ∨ ∃ c ∈ t, ¬ c.isDigit)
    (label : IsLabel s line) (label' : IsLabel t line') (lines : text.lines = p.lines line)
    (lines' : text'.lines = p.lines line') (name : Text) :
    Alike (Module.DifferIn (p.Relabelled s line t line')) (Module.ofText text name)
      (Module.ofText text' name) := by
  refine Module.alike_ofText lines lines' p.top (p.framed_body label) (p.framed_body label') ?_ name
  rw [Function.ofLines, Function.ofLines]
  cases Function.callee? (Function.headerText p.header) with
  | none => exact .error _
  | some found =>
    have alike := p.alike_ofBody (label.ofLine? ascii) (label'.ofLine? ascii')
      (fun slots => Slots.opened_word word ascii) (fun slots => Slots.opened_word word' ascii')
      (Function.slotCount (Function.parameters found.2)) p.header.length
    simp only
    generalize Block.ofBody _ _ (p.body line) = read at alike
    generalize Block.ofBody _ _ (p.body line') = read' at alike
    cases alike with
    | error e => exact .error _
    | ok related =>
      obtain ⟨before, b, after, first, rfl, rfl⟩ := related
      refine .ok fun m =>
        { header := rfl
          body := ⟨rfl, rfl⟩
          blocks := ⟨before.map m.locateBlock, m.locateBlock b, after.map m.locateBlock, first, ?_, ?_⟩
          rest := rfl }
      · exact List.map_append.trans rfl
      · exact List.map_append.trans rfl

end LabelPlace

namespace Module

/-- **Quoted names are read as they were written.** A function whose name was written between quotes
has that name and is found under it. Which name it is matters neither to whether the text is read nor
to the parameters, the blocks and all else of the module, but the debug reference of the function is
looked for in the name too. A label whose name was written between quotes, where no instruction is
open, opens a block of that name; which name it is, if it is no number, matters to nothing else. -/
theorem quoted_names_read (name : Text) :
    (∀ (p : FunctionPlace) (s text : Text) (m : Module), IsAscii s → text.lines = p.lines s →
      ofText text name = .ok m → ∃ before f after, m.funcs = before ++ f :: after ∧ p.Reads s f ∧
        (∃ g, m.func? s = some g ∧ g.name = s) ∧
        ((∀ g ∈ before, g.name ≠ s) → m.func? s = some f)) ∧
    (∀ (p : FunctionPlace) (s t text text' : Text), IsAscii s → IsAscii t →
      text.lines = p.lines s → text'.lines = p.lines t →
        Alike (DifferIn (p.Renamed s t)) (ofText text name) (ofText text' name)) ∧
    ∀ (p : LabelPlace) (s t line line' text text' : Text), IsAscii s → IsAscii t →
      (s = [] ∨ ∃ c ∈ s, ¬ c.isDigit) → (t = [] ∨ ∃ c ∈ t, ¬ c.isDigit) →
      IsLabel s line → IsLabel t line' → text.lines = p.lines line → text'.lines = p.lines line' →
        Alike (DifferIn (p.Relabelled s line t line')) (ofText text name) (ofText text' name) := by
  refine ⟨fun p s text m ascii lines read => ?_,
    fun p s t text text' ascii ascii' lines lines' => p.alike_ofText ascii ascii' lines lines' name,
    fun p s t line line' text text' ascii ascii' word word' label label' lines lines' =>
      p.alike_ofText ascii ascii' word word' label label' lines lines' name⟩
  have alike := p.alike_ofText ascii ascii lines lines name
  rw [read] at alike
  obtain - | ⟨before, f, _, after, funcs, -, renamed, -⟩ := alike
  have named : decide (f.name = s) = true := decide_eq_true renamed.first.name
  refine ⟨before, f, after, funcs, renamed.first, ?_, fun others => ?_⟩
  · have some : (m.func? s).isSome := by
      rw [func?, List.find?_isSome, funcs]
      exact ⟨f, by simp, named⟩
    obtain ⟨g, found⟩ := Option.isSome_iff_exists.1 some
    exact ⟨g, found, by simpa using List.find?_some found⟩
  · rw [func?, funcs, List.find?_append,
      List.find?_eq_none.2 fun g member => by simpa using others g member, Option.none_or]
    exact List.find?_cons_of_pos named

/-- A name with characters of all kinds that mean something around it. -/
def oddFunction : Text := "f(%1, \"x\\y\";\t@a:"

/-- And such a label. -/
def oddLabel : Text := "b, (%2]; \":"

/-- The line of the label. -/
def oddLine : Text := "  \"b, (%2]; \\22:\": ; note"

/-- A definition with a place for a name. -/
def oddPlace : FunctionPlace where
  before := []
  front := "define i32 "
  rest := "i32 %x, i32) !dbg !5 \x7b"
  body := ["  br label %\"b\"", oddLine, "  ret i32 0"]
  closing := ['}']
  after := []
  starts := rfl
  unmarked := by decide
  opens := rfl
  inner := by decide
  closes := rfl
  top := by simp [Chunk.ofLines_nil]

/-- The same definition with a place for a label. -/
def oddBody : LabelPlace where
  before := []
  header := [oddPlace.header oddFunction]
  front := ["  br label %\"b\""]
  back := ["  ret i32 0"]
  closing := ['}']
  after := []
  framed := { oddPlace.framed oddFunction with body := by decide }
  shut := by decide
  top := by simp [Chunk.ofLines_nil]

/-- The definition with these names, and with plain ones. -/
def oddText : Text := Text.join ['\n'] (oddPlace.lines oddFunction)

theorem quoted_names_read_odd :
    oddPlace.header oddFunction =
        "define i32 @\"f(%1, \\22x\\5Cy\\22;\\09@a:\"(i32 %x, i32) !dbg !5 \x7b".toList ∧
      (∃ m f, ofText oddText = .ok m ∧ m.func? oddFunction = some f ∧ oddPlace.Reads oddFunction f ∧
        f.dbg = some "!5".toList ∧ f.blocks.map (·.name) = [['1'], oddLabel]) ∧
      Alike (DifferIn (oddPlace.Renamed oddFunction ['f'])) (ofText oddText)
        (ofText (Text.join ['\n'] (oddPlace.lines ['f']))) ∧
      Alike (DifferIn (oddBody.Relabelled oddLabel oddLine ['b'] ['"', 'b', '"', ':']))
        (ofText oddText) (ofText (Text.join ['\n'] (oddBody.lines ['"', 'b', '"', ':']))) := by
  obtain ⟨named, renamed, relabelled⟩ := quoted_names_read "stdin"
  have lines : oddText.lines = oddPlace.lines oddFunction := by decide +kernel
  have label : IsLabel oddLabel oddLine :=
    ⟨"  ", " ; note", by decide, by decide, by decide⟩
  refine ⟨by decide, ?_, ?_, ?_⟩
  · have outcome : (ofText oddText).map (fun m => m.funcs.map fun f =>
        (f.dbg, f.blocks.map (·.name))) = .ok [(some "!5".toList, [['1'], oddLabel])] := by
      decide +kernel
    obtain ⟨m, read, only⟩ := map_eq_ok.1 outcome
    obtain ⟨before, f, after, funcs, reads, -, found⟩ :=
      named oddPlace oddFunction oddText m (by decide) lines read
    rw [funcs, List.map_append, List.map_cons] at only
    obtain ⟨rfl, own⟩ : before = [] ∧ (f.dbg, f.blocks.map (·.name)) = (some _, [['1'], oddLabel]) := by
      cases before with
      | nil => exact ⟨rfl, (List.cons.inj only).1⟩
      | cons g before => simp at only
    obtain ⟨dbg, blocks⟩ := Prod.mk.inj own
    exact ⟨m, f, read, found nofun, reads, dbg, blocks⟩
  · exact renamed oddPlace oddFunction ['f'] oddText _ (by decide) (by decide) lines
      (by decide +kernel)
  · exact relabelled oddBody oddLabel ['b'] oddLine _ oddText _ (by decide) (by decide)
      (.inr ⟨'b', by decide, by decide⟩) (.inr ⟨'b', by decide, by decide⟩) label
      ⟨[], [], by decide, by decide, by decide⟩ (by decide +kernel) (by decide +kernel)

/-- A definition whose header ends with a debug reference. -/
def referencePlace : FunctionPlace where
  before := []
  front := "define void "
  rest := ") !dbg !5 \x7b"
  body := ["  ret void"]
  closing := ['}']
  after := []
  starts := rfl
  unmarked := by decide
  opens := rfl
  inner := by decide
  closes := rfl
  top := by simp [Chunk.ofLines_nil]

/-- A name that holds a debug reference is taken for one, although the header has another behind the
name. -/
theorem quoted_name_taken_for_reference :
    (ofText "define void @\"!dbg !7\"() !dbg !5 \x7b\n  ret void\n\x7d\n").map
        (fun m => m.funcs.map fun f => (f.name, f.dbg)) =
          .ok [("!dbg !7".toList, some "!7".toList)] ∧
      ¬ ∀ (p : FunctionPlace) (s text name : Text) (m : Module), IsAscii s →
        text.lines = p.lines s → ofText text name = .ok m →
          ∃ f ∈ m.funcs, f.name = s ∧ f.dbg = debugRef? p.rest := by
  have outcome : (ofText "define void @\"!dbg !7\"() !dbg !5 \x7b\n  ret void\n\x7d\n").map
      (fun m => m.funcs.map fun f => (f.name, f.dbg)) =
        .ok [("!dbg !7".toList, some "!7".toList)] := by
    decide +kernel
  refine ⟨outcome, fun all => ?_⟩
  obtain ⟨m, read, only⟩ := map_eq_ok.1 outcome
  obtain ⟨f, member, -, dbg⟩ := all referencePlace "!dbg !7" _ "stdin" m (by decide)
    (by decide +kernel) read
  have own : (f.name, f.dbg) ∈ [("!dbg !7".toList, some "!7".toList)] :=
    only ▸ List.mem_map_of_mem member
  rw [dbg, List.mem_singleton] at own
  exact absurd (Prod.mk.inj own).2 (by decide)

end Module

end FlowReport.Assembly
