import FlowReport.Proofs.EndedLines
import FlowReport.Proofs.Partition
import FlowReport.Proofs.Tables
import Mathlib.Algebra.Ring.Int.Defs

/-!
# Modules written one after the other

A text that ends with a line break can be put before another one. Its lines are then the first lines
of the whole, and its chunks the first chunks, unless its last metadata node is left open and takes
lines of the second text. So the module of the whole is the first module followed by the second one;
only the locations of the instructions are looked up again, in the tables of both.
-/

namespace FlowReport

namespace Assembly

/-- Lines that were taken while a balance was open are taken again when other lines follow, if the
last of them closed it. -/
theorem takeOpen_append_of_closed {weight : Text → Int} {balance : Int} {ls : List Text}
    (closed : balance + ((takeOpen weight balance ls).1.map weight).sum ≤ 0) (more : List Text) :
    takeOpen weight balance (ls ++ more) =
      ((takeOpen weight balance ls).1, (takeOpen weight balance ls).2 ++ more) := by
  induction ls generalizing balance with
  | nil =>
    have shut : ¬ 0 < balance := by simpa [takeOpen] using closed
    cases more with
    | nil => rfl
    | cons line more => simp [takeOpen, shut]
  | cons line ls ih =>
    by_cases h : 0 < balance
    · simp only [takeOpen, h, if_true, List.map_cons, List.sum_cons, ← Int.add_assoc] at closed
      simp only [List.cons_append, takeOpen, h, if_true, ih closed]
    · simp [takeOpen, h]

theorem parenBalance_append (s s' : Text) :
    parenBalance (s ++ s') = parenBalance s + parenBalance s' := by
  simp only [parenBalance, List.count_append, Int.natCast_add]
  omega

/-- A blank between lines weighs nothing. -/
theorem parenBalance_join (s : Text) (ls : List Text) :
    parenBalance (Text.join [' '] (s :: ls)) = parenBalance s + (ls.map parenBalance).sum := by
  induction ls generalizing s with
  | nil => simp [Text.join]
  | cons next ls ih =>
    rw [Text.join, parenBalance_append, parenBalance_append, ih, List.map_cons, List.sum_cons]
    simp [parenBalance]

namespace Chunk

/-- The chunk is a node whose parentheses are not all closed. -/
def isOpenNode : Chunk → Bool
  | node _ content _ => 0 < parenBalance content
  | _ => false

/-- The chunk was not stopped by the end of the text. -/
def isComplete : Chunk → Bool
  | openHeader _ => false
  | openBody _ => false
  | chunk => !chunk.isOpenNode

theorem cutWhere?_append {α : Type} {p : α → Bool} {l before after : List α} {a : α}
    (h : cutWhere? p l = some (before, a, after)) (more : List α) :
    cutWhere? p (l ++ more) = some (before, a, after ++ more) := by
  obtain ⟨rfl, found, earlier⟩ := cutWhere?_eq_some_iff.1 h
  exact cutWhere?_eq_some_iff.2 ⟨by simp, found, earlier⟩

/-- A complete chunk takes the same lines when more follow. -/
theorem next_append {line : Text} {rest : List Text}
    (complete : (next line rest).1.isComplete = true) (more : List Text) :
    next line (rest ++ more) = ((next line rest).1, (next line rest).2 ++ more) := by
  simp only [next] at complete ⊢
  by_cases silent : line.trim = [] ∨ line.trim.head? = some ';'
  · simp only [if_pos silent]
  simp only [if_neg silent] at complete ⊢
  by_cases starts : (Text.dropPrefix? "define " line.trim).isSome
  · simp only [if_pos starts] at complete ⊢
    cases head : cutWhere? endsHeader (line :: rest) with
    | none => simp [head, isComplete] at complete
    | some found =>
      obtain ⟨before, last, after⟩ := found
      simp only [head] at complete
      rw [← List.cons_append, cutWhere?_append head]
      cases body : cutWhere? closesBody after with
      | none => simp [body, isComplete] at complete
      | some found =>
        simp only [body, cutWhere?_append body more]
  simp only [if_neg starts] at complete ⊢
  cases source : sourceFilename? line.trim with
  | some => rfl
  | none =>
    cases known : named? line.trim with
    | some => rfl
    | none =>
      cases defined : node? line.trim with
      | none => rfl
      | some found =>
        obtain ⟨key, content⟩ := found
        simp only [source, known, defined] at complete ⊢
        by_cases debug : namesDebugNode content
        · simp only [if_pos debug] at complete ⊢
          have closed : parenBalance content +
              ((takeOpen weight (parenBalance content) rest).1.map weight).sum ≤ 0 := by
            have closed := complete
            simp only [isComplete, isOpenNode, parenBalance_join, List.map_map] at closed
            rw [show parenBalance ∘ Text.trim = weight from rfl] at closed
            simpa using closed
          rw [takeOpen_append_of_closed closed]
        · simp only [if_neg debug]

/-- The chunks of lines that are written one after the other. -/
theorem ofLines_append {ls : List Text} (complete : ∀ chunk ∈ ofLines ls, chunk.isComplete = true)
    (more : List Text) : ofLines (ls ++ more) = ofLines ls ++ ofLines more := by
  fun_induction ofLines ls with
  | case1 => rfl
  | case2 line rest ih =>
    obtain ⟨first, others⟩ := List.forall_mem_cons.1 complete
    rw [List.cons_append, ofLines_cons, next_append first, ih others]
    rfl

end Chunk

namespace Module

/-- The module with all that another one holds behind its own. -/
def followedBy (m₁ m₂ : Module) : Module where
  name := m₂.name
  text := m₁.text ++ m₂.text
  funcs := m₁.funcs ++ m₂.funcs
  sourceFilename := m₂.sourceFilename.or m₁.sourceFilename
  files := m₁.files.updated m₂.files
  locations := m₁.locations.updated m₂.locations
  units := m₁.units.updated m₂.units
  named := m₁.named.updated m₂.named

/-- No table of the module has a key twice. -/
structure Keyed (m : Module) : Prop where
  files : m.files.Distinct
  locations : m.locations.Distinct
  units : m.units.Distinct
  named : m.named.Distinct

theorem Keyed.addNode {m : Module} (h : m.Keyed) (key content : Text) :
    (m.addNode key content).Keyed := by
  unfold Module.addNode
  split
  · split
    · exact { h with locations := h.locations.set _ _ }
    · exact h
  split
  · split
    · exact { h with files := h.files.set _ _ }
    · exact h
  · split
    · exact { h with units := h.units.set _ _ }
    · exact h

theorem addNode_followedBy {m₁ : Module} (keyed : m₁.Keyed) (m₂ : Module) (key content : Text) :
    (m₁.followedBy m₂).addNode key content = m₁.followedBy (m₂.addNode key content) := by
  unfold addNode
  split
  · split
    · simp only [followedBy, Table.updated_set keyed.locations]
    · rfl
  split
  · split
    · simp only [followedBy, Table.updated_set keyed.files]
    · rfl
  · split
    · simp only [followedBy, Table.updated_set keyed.units]
    · rfl

theorem Keyed.add {m m' : Module} (h : m.Keyed) {chunk : Chunk} (added : m.add chunk = .ok m') :
    m'.Keyed := by
  cases chunk with
  | other => cases added; exact h
  | openHeader => cases added
  | openBody => cases added
  | define header body closing =>
    obtain ⟨f, -, rfl⟩ := add_define added
    exact { h with }
  | sourceFilename => cases added; exact { h with }
  | named key refs => cases added; exact { h with named := h.named.set _ _ }
  | node key content => cases added; exact h.addNode key content

/-- A chunk is put into the second of two modules. -/
theorem add_followedBy {m₁ : Module} (keyed : m₁.Keyed) (m₂ : Module) (chunk : Chunk) :
    (m₁.followedBy m₂).add chunk = (m₂.add chunk).map m₁.followedBy := by
  cases chunk with
  | define header body closing =>
    simp only [add]
    cases Function.ofLines header body closing with
    | error e => rfl
    | ok f => simp [Except.map, followedBy]
  | named key refs => simp [add, Except.map, followedBy, Table.updated_set keyed.named]
  | node key content => simp [add, Except.map, addNode_followedBy keyed]
  | _ => rfl

theorem foldlM_followedBy {m₁ : Module} (keyed : m₁.Keyed) (m₂ : Module) (chunks : List Chunk) :
    chunks.foldlM add (m₁.followedBy m₂) = (chunks.foldlM add m₂).map m₁.followedBy := by
  induction chunks generalizing m₂ with
  | nil => rfl
  | cons chunk chunks ih =>
    rw [List.foldlM_cons, List.foldlM_cons, add_followedBy keyed]
    cases m₂.add chunk with
    | error e => rfl
    | ok mid => exact ih mid

theorem Keyed.foldlM {m m' : Module} (h : m.Keyed) {chunks : List Chunk}
    (read : chunks.foldlM Module.add m = .ok m') : m'.Keyed := by
  induction chunks generalizing m with
  | nil => cases read; exact h
  | cons chunk chunks ih =>
    rw [List.foldlM_cons] at read
    obtain ⟨mid, added, read⟩ := bind_eq_ok.1 read
    exact ih (h.add added) read

theorem keyed_empty (name text : Text) : Keyed { name, text } :=
  ⟨List.nodup_nil, List.nodup_nil, List.nodup_nil, List.nodup_nil⟩

/-- The text that a module keeps does not matter for what is put into it. -/
theorem foldlM_text (m : Module) (text : Text) (chunks : List Chunk) :
    chunks.foldlM add { m with text } = (chunks.foldlM add m).map fun m => { m with text } := by
  induction chunks generalizing m with
  | nil => rfl
  | cons chunk chunks ih =>
    have first : add { m with text } chunk = (m.add chunk).map fun m => { m with text } := by
      cases chunk with
      | define header body closing =>
        simp only [add]
        cases Function.ofLines header body closing <;> rfl
      | node key content =>
        simp only [add, addNode, Except.map]
        split
        · split <;> rfl
        split
        · split <;> rfl
        · split <;> rfl
      | _ => rfl
    rw [List.foldlM_cons, List.foldlM_cons, first]
    cases m.add chunk with
    | error e => rfl
    | ok mid => exact ih mid

@[simp] theorem name_addNode (m : Module) (key content : Text) :
    (m.addNode key content).name = m.name := by
  unfold addNode
  repeat' split
  all_goals rfl

@[simp] theorem text_addNode (m : Module) (key content : Text) :
    (m.addNode key content).text = m.text := by
  unfold addNode
  repeat' split
  all_goals rfl

/-- What is put into a module does not change its name and its text. -/
theorem name_text_of_foldlM {m m' : Module} {chunks : List Chunk}
    (read : chunks.foldlM add m = .ok m') : m'.name = m.name ∧ m'.text = m.text := by
  induction chunks generalizing m with
  | nil =>
    cases read
    exact ⟨rfl, rfl⟩
  | cons chunk chunks ih =>
    rw [List.foldlM_cons] at read
    obtain ⟨mid, added, read⟩ := bind_eq_ok.1 read
    obtain ⟨name, text⟩ := ih read
    rw [name, text]
    cases chunk with
    | define header body closing =>
      obtain ⟨f, -, rfl⟩ := add_define added
      exact ⟨rfl, rfl⟩
    | openHeader => cases added
    | openBody => cases added
    | node key content =>
      cases added
      exact ⟨name_addNode m key content, text_addNode m key content⟩
    | _ =>
      cases added
      exact ⟨rfl, rfl⟩

/-- In a text that was read, only a node can be stopped by the end. -/
theorem isComplete_of_foldlM {m m' : Module} {chunks : List Chunk}
    (read : chunks.foldlM add m = .ok m') (closed : ∀ chunk ∈ chunks, chunk.isOpenNode = false) :
    ∀ chunk ∈ chunks, chunk.isComplete = true := by
  induction chunks generalizing m with
  | nil => exact fun _ member => absurd member List.not_mem_nil
  | cons chunk chunks ih =>
    rw [List.foldlM_cons] at read
    obtain ⟨mid, added, read⟩ := bind_eq_ok.1 read
    obtain ⟨own, others⟩ := List.forall_mem_cons.1 closed
    refine List.forall_mem_cons.2 ⟨?_, ih read others⟩
    cases chunk with
    | openHeader => cases added
    | openBody => cases added
    | _ => simpa [Chunk.isComplete] using own

/-- Locating an instruction again forgets where it was located before. -/
theorem locateFunction_locateFunction (m m' : Module) (f : Function) :
    m.locateFunction (m'.locateFunction f) = m.locateFunction f := by
  simp [locateFunction, locateBlock, locate]

theorem resolved_followedBy_resolved (m₁ m₂ : Module) :
    (m₁.resolved.followedBy m₂.resolved).resolved = (m₁.followedBy m₂).resolved := by
  simp only [resolved, followedBy, List.map_append, List.map_map]
  congr 2
  · exact List.map_congr_left fun f _ => locateFunction_locateFunction _ _ f
  · exact List.map_congr_left fun f _ => locateFunction_locateFunction _ _ f

/-- The module of two texts is that of the second one, with the first one before it. -/
theorem ofText_append_eq {text text' name : Text} {m : Module} (ended : Text.Ended text)
    (read : ofText text name = .ok m)
    (closed : ∀ chunk ∈ Chunk.ofLines text.lines, chunk.isOpenNode = false) :
    ofText (text ++ text') name =
      (ofText text' name).map fun m' => (m.followedBy m').resolved := by
  unfold ofText at read ⊢
  cases first : (Chunk.ofLines text.lines).foldlM add { name, text } with
  | error e => rw [first] at read; cases read
  | ok raw =>
    rw [first] at read
    cases read
    have complete := isComplete_of_foldlM first closed
    have keyed : raw.Keyed := (keyed_empty name text).foldlM first
    obtain ⟨named, kept⟩ := name_text_of_foldlM first
    have start : (Chunk.ofLines text.lines).foldlM add { name, text := text ++ text' } =
        .ok (raw.followedBy { name, text := text' }) := by
      rw [foldlM_text { name, text }, first]
      simp [Except.map, followedBy, Table.updated, Table.get?, named, kept]
    rw [Text.lines_append (ended.parted text'), Chunk.ofLines_append complete, List.foldlM_append, start]
    show ((Chunk.ofLines text'.lines).foldlM add _).map resolved = _
    rw [foldlM_followedBy keyed]
    cases (Chunk.ofLines text'.lines).foldlM add { name, text := text' } with
    | error e => rfl
    | ok raw' => exact congrArg Except.ok (resolved_followedBy_resolved raw raw').symm

/-- The function as it is written, without the places that its instructions lead to. -/
def unlocated (f : Function) : Function :=
  { f with blocks := f.blocks.map fun b =>
      { b with insts := b.insts.map fun i => { i with location := none } } }

@[simp] theorem unlocated_locateFunction (m : Module) (f : Function) :
    unlocated (m.locateFunction f) = unlocated f := by
  simp [unlocated, locateFunction, locateBlock, locate]

/-- A module holds what one module holds, and behind it what another one holds. -/
structure Joins (m₁ m₂ m : Module) : Prop where
  text : m.text = m₁.text ++ m₂.text
  /-- The functions are those of both, with their names, lines, blocks, instructions and debug
  references. -/
  funcs : m.funcs.map unlocated = (m₁.funcs ++ m₂.funcs).map unlocated
  sourceFilename : m.sourceFilename = m₂.sourceFilename.or m₁.sourceFilename
  files : m.files = m₁.files.updated m₂.files
  locations : m.locations = m₁.locations.updated m₂.locations
  units : m.units = m₁.units.updated m₂.units
  named : m.named = m₁.named.updated m₂.named
  /-- Each instruction has the location that its reference leads to in the tables of both. -/
  located : ∀ f ∈ m.funcs, ∀ b ∈ f.blocks, ∀ i ∈ b.insts,
    i.location = i.dbg.bind (m₁.locations.updated m₂.locations).get?

theorem located_of_mem_resolved {m : Module} {f : Function} (hf : f ∈ m.resolved.funcs) {b : Block}
    (hb : b ∈ f.blocks) {i : Instruction} (hi : i ∈ b.insts) :
    i.location = i.dbg.bind m.locations.get? := by
  obtain ⟨f, -, rfl⟩ := List.mem_map.1 hf
  obtain ⟨b, -, rfl⟩ := List.mem_map.1 hb
  obtain ⟨i, -, rfl⟩ := List.mem_map.1 hi
  rfl

theorem joins_resolved_followedBy (m₁ m₂ : Module) : Joins m₁ m₂ (m₁.followedBy m₂).resolved where
  text := rfl
  funcs := by simp [resolved, followedBy, Function.comp_def]
  sourceFilename := rfl
  files := rfl
  locations := rfl
  units := rfl
  named := rfl
  located _ hf _ hb _ hi := located_of_mem_resolved hf hb hi

/-- For distinct keys the order of two tables does not matter to what a key leads to. -/
theorem get?_updated_comm {t u : Table SourceLocation}
    (apart : ∀ key, t.get? key = none ∨ u.get? key = none) :
    (t.updated u).get? = (u.updated t).get? := by
  funext key
  rw [Table.get?_updated, Table.get?_updated]
  rcases apart key with none | none <;> rw [none] <;> simp

/-- Only where the references lead to matters to what becomes of a function. -/
theorem locateFunction_congr {m m' : Module} (same : m.locations.get? = m'.locations.get?) :
    m.locateFunction = m'.locateFunction := by
  have instructions : m.locate = m'.locate := funext fun i => by simp only [locate, same]
  have blocks : m.locateBlock = m'.locateBlock :=
    funext fun b => by simp only [locateBlock, instructions]
  funext f
  simp only [locateFunction, blocks]

/-- Where no reference is defined in both texts, their order moves the functions and nothing else. -/
theorem funcs_followedBy_perm {m₁ m₂ : Module}
    (apart : ∀ key, m₁.locations.get? key = none ∨ m₂.locations.get? key = none) :
    (m₂.followedBy m₁).resolved.funcs.Perm (m₁.followedBy m₂).resolved.funcs := by
  have same : (m₂.followedBy m₁).locateFunction = (m₁.followedBy m₂).locateFunction :=
    locateFunction_congr (get?_updated_comm apart).symm
  simp only [resolved, same]
  exact List.perm_append_comm.map _

/-- A text can be read piece by piece. If a text that was read ends with a line break and leaves no
metadata node open, then what follows it is accepted or not on its own, and the module of both
holds what the two modules hold. Where no location is defined in both, the two texts can also
change places. -/
theorem ofText_joins {text text' name : Text} {m : Module} (ended : Text.Ended text)
    (read : ofText text name = .ok m)
    (closed : ∀ chunk ∈ Chunk.ofLines text.lines, chunk.isOpenNode = false) :
    (∀ e, ofText (text ++ text') name = .error e ↔ ofText text' name = .error e) ∧
      ∀ m', ofText text' name = .ok m' →
        ∃ whole, ofText (text ++ text') name = .ok whole ∧ Joins m m' whole ∧
          ((∀ key, m.locations.get? key = none ∨ m'.locations.get? key = none) →
            Text.Ended text' →
            (∀ chunk ∈ Chunk.ofLines text'.lines, chunk.isOpenNode = false) →
            ∃ swapped, ofText (text' ++ text) name = .ok swapped ∧
              swapped.funcs.Perm whole.funcs ∧
              ∀ key, swapped.locations.get? key = whole.locations.get? key) := by
  rw [ofText_append_eq ended read closed]
  constructor
  · intro e
    cases ofText text' name with
    | error e' => rfl
    | ok m' => simp [Except.map]
  · intro m' read'
    refine ⟨(m.followedBy m').resolved, by rw [read']; rfl, joins_resolved_followedBy m m', ?_⟩
    intro apart ended' closed'
    refine ⟨(m'.followedBy m).resolved, ?_, funcs_followedBy_perm apart, ?_⟩
    · rw [ofText_append_eq ended' read' closed', read]
      rfl
    · intro key
      exact congrFun (get?_updated_comm apart).symm key

/-- The locations of all instructions of a module. -/
def instructionPlaces (m : Module) : List (Option SourceLocation) :=
  m.funcs.flatMap fun f => f.blocks.flatMap fun b => b.insts.map (·.location)

/-- A function whose location is defined in the other text, and a location over two lines. -/
def firstHalf : Text :=
  "define void @f() \x7b\n  ret void, !dbg !7\n\x7d\n!5 = !DILocation(line: 4,\n  column: 2)\n"

/-- A location for the function of the other text, and a function that uses the other location. -/
def secondHalf : Text :=
  "!7 = !DILocation(line: 9)\ndefine void @g() \x7b\n  ret void, !dbg !5\n\x7d\n"

/-- The two halves lead to each other's locations. -/
theorem ofText_joins_halves :
    ∃ m m' whole, ofText firstHalf = .ok m ∧ ofText secondHalf = .ok m' ∧
      ofText (firstHalf ++ secondHalf) = .ok whole ∧ Joins m m' whole ∧
      instructionPlaces m = [none] ∧ instructionPlaces m' = [none] ∧
      instructionPlaces whole = [some ⟨9, none⟩, some ⟨4, some 2⟩] := by
  have first : (ofText firstHalf).map instructionPlaces = .ok [none] := by decide +kernel
  have second : (ofText secondHalf).map instructionPlaces = .ok [none] := by decide +kernel
  have both : (ofText (firstHalf ++ secondHalf)).map instructionPlaces =
      .ok [some ⟨9, none⟩, some ⟨4, some 2⟩] := by decide +kernel
  cases read : ofText firstHalf with
  | error e => rw [read] at first; cases first
  | ok m =>
    cases read' : ofText secondHalf with
    | error e => rw [read'] at second; cases second
    | ok m' =>
      have joins := @ofText_joins firstHalf secondHalf "stdin" m (by decide) read (by decide +kernel)
      obtain ⟨whole, readWhole, joins, -⟩ := joins.2 m' read'
      rw [read] at first
      rw [read'] at second
      rw [readWhole] at both
      exact ⟨m, m', whole, rfl, rfl, readWhole, joins, Except.ok.inj first, Except.ok.inj second,
        Except.ok.inj both⟩

end Module

end Assembly

end FlowReport
