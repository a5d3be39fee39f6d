import FlowReport.Proofs.BlockRange
import FlowReport.Proofs.Concatenation
import FlowReport.Proofs.Fragments

/-!
# What is highlighted

A function that was read holds the text of each of its blocks, so its lines are found for every node
that names a block, and they are lines of the function. The highlighting stops only at a node that
names no block: at the first one, in the assembly as in the source code.
-/

namespace FlowReport

open Assembly

/-- Joined lines have no breaks but the line feeds between them. -/
theorem Text.onlyFeeds_join {ls : List Text}
    (unbroken : ∀ l ∈ ls, ∀ c ∈ l, isLineBreak c = false) : OnlyFeeds (join ['\n'] ls) := by
  induction ls with
  | nil => exact nofun
  | cons line ls ih =>
    obtain ⟨head, tail⟩ := List.forall_mem_cons.1 unbroken
    have first : OnlyFeeds line := fun c member isBreak => by
      rw [head c member] at isBreak
      cases isBreak
    cases ls with
    | nil => exact first
    | cons next ls =>
      rw [join_cons (List.cons_ne_nil _ _), OnlyFeeds.append_iff, OnlyFeeds.append_iff]
      exact ⟨⟨first, by decide⟩, ih tail⟩

namespace Assembly.Module

variable {text name : Text} {m : Module} {f : Function}

/-- Line feeds are the only breaks in the text of a function. -/
theorem onlyFeeds_of_ofText (h : ofText text name = .ok m) (member : f ∈ m.funcs) :
    f.text.OnlyFeeds :=
  Text.onlyFeeds_join fun l hl => Text.unbroken_lines text l (mem_lines_of_ofText h member l hl)

/-- The lines of a function's text are counted by its line feeds: its last line is not empty. -/
theorem length_lines_of_ofText (h : ofText text name = .ok m) (member : f ∈ m.funcs) :
    f.text.lines.length = f.text.dropLast.count '\n' + 1 := by
  have nonempty : f.text ≠ [] := by
    intro empty
    obtain ⟨before, last, header, -⟩ := (accounted_of_ofText h member).framed.header
    have unbroken : ∀ l ∈ f.lines, '\n' ∉ l := fun l hl within =>
      absurd (Text.unbroken_lines text l (mem_lines_of_ofText h member l hl) _ within) (by decide)
    have count := Text.count_join unbroken (by simp [Function.lines])
    rw [show Text.join ['\n'] f.lines = [] from empty, Function.lines, header] at count
    simp only [List.length_append, List.length_singleton, List.count_nil] at count
    omega
  rw [← Text.length_fullLines (onlyFeeds_of_ofText h member) nonempty, Text.lines, Text.fullLines,
    List.length_map, List.length_map]

/-- The instructions of a module have the locations that their references lead to in its tables. -/
theorem location_of_ofText (h : ofText text name = .ok m) (member : f ∈ m.funcs) {b : Block}
    (hb : b ∈ f.blocks) {i : Instruction} (hi : i ∈ b.insts) :
    i.location = i.dbg.bind m.locations.get? := by
  obtain ⟨raw, -, rfl⟩ := map_eq_ok.1 h
  exact located_of_mem_resolved member hb hi

end Assembly.Module

namespace Highlight

variable {f : Function} {node : WideText} {nodes : List WideText} {b : Block} {e : Error}

/-- The node is the name of a block of the function. -/
def Names (f : Function) (node : WideText) : Prop := ∃ b ∈ f.blocks, node = b.name.wide

instance (f : Function) (node : WideText) : Decidable (Names f node) :=
  inferInstanceAs (Decidable (∃ _ ∈ _, _))

/-- What a node leads to is the first block of that name. -/
theorem block?_of_node : node.text?.bind f.block? = f.blocks.find? (·.name.wide = node) := by
  cases read : node.text? with
  | none =>
    refine (List.find?_eq_none.2 ?_).symm
    intro b _ same
    rw [← of_decide_eq_true same, WideText.text?_wide] at read
    cases read
  | some s =>
    have same : ∀ b : Block, b.name.wide = node ↔ b.name = s := by
      intro b
      rw [eq_comm, ← WideText.text?_eq_some_iff, read, Option.some.injEq, eq_comm]
    simp only [Option.bind_some, Function.block?, same]

theorem findBlock_eq_ok_iff :
    findBlock f node = .ok b ↔ f.blocks.find? (·.name.wide = node) = some b := by
  rw [← block?_of_node]
  unfold findBlock
  cases node.text?.bind f.block? with
  | none => simp
  | some _ => simp

theorem names_iff : Names f node ↔ ∃ b, findBlock f node = .ok b := by
  simp only [findBlock_eq_ok_iff, ← Option.isSome_iff_exists, List.find?_isSome, decide_eq_true_eq]
  exact exists_congr fun b => and_congr_right fun _ => eq_comm

theorem findBlock_eq_error_iff :
    findBlock f node = .error e ↔ ¬ Names f node ∧ e = .noBlock node f.name := by
  rw [names_iff]
  unfold findBlock
  split
  · simp
  · simp [eq_comm]

/-- The first node that names no block, as an error. -/
def StopsAt (f : Function) (nodes : List WideText) (e : Error) : Prop :=
  ∃ before node behind, nodes = before ++ node :: behind ∧ (∀ other ∈ before, Names f other) ∧
    ¬ Names f node ∧ e = .noBlock node f.name

theorem StopsAt.exists_unnamed (h : StopsAt f nodes e) :
    ∃ node ∈ nodes, ¬ Names f node ∧ e = .noBlock node f.name := by
  obtain ⟨before, node, behind, rfl, -, unnamed⟩ := h
  exact ⟨node, by simp, unnamed⟩

/-- A node stops the highlighting if one of them names no block. -/
theorem exists_stopsAt_iff : (∃ e, StopsAt f nodes e) ↔ ∃ node ∈ nodes, ¬ Names f node := by
  constructor
  · rintro ⟨e, h⟩
    obtain ⟨node, member, unnamed, -⟩ := h.exists_unnamed
    exact ⟨node, member, unnamed⟩
  · intro h
    induction nodes with
    | nil =>
      obtain ⟨node, member, -⟩ := h
      cases member
    | cons node nodes ih =>
      by_cases named : Names f node
      · obtain ⟨other, member, unnamed⟩ := h
        have later : other ∈ nodes := (List.mem_cons.1 member).resolve_left fun same =>
          unnamed (same ▸ named)
        obtain ⟨e, before, stop, behind, rfl, all, stops⟩ := ih ⟨other, later, unnamed⟩
        exact ⟨e, node :: before, stop, behind, rfl, List.forall_mem_cons.2 ⟨named, all⟩, stops⟩
      · exact ⟨_, [], node, nodes, rfl, nofun, named, rfl⟩

/-- Looking for the blocks of the nodes stops at the first node that names none. -/
theorem mapM_findBlock_eq_error_iff : nodes.mapM (findBlock f) = .error e ↔ StopsAt f nodes e := by
  simp only [mapM_eq_error_iff, findBlock_eq_error_iff, ← names_iff, StopsAt]

theorem source_eq_error_iff : source f nodes = .error e ↔ StopsAt f nodes e := by
  unfold source
  rw [bind_eq_error, ← mapM_findBlock_eq_error_iff]
  constructor
  · rintro (h | ⟨bs, -, h⟩)
    · exact h
    · cases h
  · exact .inl

/-- The lines of each block of the function are found in it. -/
def Located (f : Function) : Prop := ∀ b ∈ f.blocks, ∃ range, blockRange f b = .ok range

/-- A function that was read holds its blocks. -/
theorem located_of_ofText {text name : Text} {m : Module} (h : Module.ofText text name = .ok m)
    {f : Function} (member : f ∈ m.funcs) : Located f := by
  intro b hb
  have accounted := Module.accounted_of_ofText h member
  have unbroken : ∀ l ∈ f.lines, '\n' ∉ l := fun l hl within =>
    absurd (Text.unbroken_lines text l (Module.mem_lines_of_ofText h member l hl) _ within)
      (by decide)
  obtain ⟨i, -, -, range⟩ := blockRange_eq
    (accounted.blocks.slice _ (List.mem_map_of_mem hb)) unbroken (accounted.nonempty b hb)
  exact ⟨_, range⟩

/-- Since the lines of a block are found, the lines in the assembly fail only at a name. -/
theorem assembly_eq_error_iff (located : Located f) :
    assembly f nodes = .error e ↔ StopsAt f nodes e := by
  have named : ∀ node, (∃ range, (findBlock f node >>= blockRange f) = .ok range) ↔ Names f node := by
    intro node
    rw [names_iff]
    constructor
    · rintro ⟨range, h⟩
      obtain ⟨b, found, -⟩ := bind_eq_ok.1 h
      exact ⟨b, found⟩
    · rintro ⟨b, found⟩
      obtain ⟨range, lines⟩ := located b (mem_of_findBlock found)
      exact ⟨range, bind_eq_ok.2 ⟨b, found, lines⟩⟩
  have unnamed : ∀ node, (findBlock f node >>= blockRange f) = .error e ↔
      ¬ Names f node ∧ e = .noBlock node f.name := by
    intro node
    rw [bind_eq_error, ← findBlock_eq_error_iff, or_iff_left]
    rintro ⟨b, found, failed⟩
    obtain ⟨range, lines⟩ := located b (mem_of_findBlock found)
    rw [lines] at failed
    cases failed
  unfold assembly
  simp only [mapM_eq_error_iff, named, unnamed, StopsAt]

theorem names_of_assembly {ranges : List LineRange} (h : assembly f nodes = .ok ranges) :
    ∀ node ∈ nodes, Names f node := by
  intro node member
  obtain ⟨range, found⟩ := exists_mapM_eq_ok_iff.1 ⟨ranges, h⟩ node member
  obtain ⟨b, found, -⟩ := bind_eq_ok.1 found
  exact names_iff.2 ⟨b, found⟩

theorem names_of_source {lines : List LineRange} (h : source f nodes = .ok lines) :
    ∀ node ∈ nodes, Names f node := by
  intro node member
  obtain ⟨blocks, found, -⟩ := bind_eq_ok.1 h
  exact names_iff.2 (exists_mapM_eq_ok_iff.1 ⟨blocks, found⟩ node member)

theorem blockRange_eq_ok_iff {range : LineRange} :
    blockRange f b = .ok range ↔ LineRange.locate? f.text b.text = some range := by
  unfold blockRange
  cases LineRange.locate? f.text b.text with
  | none => simp
  | some _ => simp

/-- In a function that was read, the highlighting of nodes fails if and only if one of them names no
block, at the first such node and in the assembly as in the source code. If it does not fail, there
is one range for each node, within the lines of the function, and one line of the source code for
each instruction whose reference leads to a location. -/
theorem highlights_fail_only_at_names {text name : Text} {m : Module}
    (h : Module.ofText text name = .ok m) {f : Function} (member : f ∈ m.funcs)
    (nodes : List WideText) :
    ((∃ e, assembly f nodes = .error e) ↔ ∃ node ∈ nodes, ¬ Names f node) ∧
    (∀ e, assembly f nodes = .error e ↔ StopsAt f nodes e) ∧
    (∀ e, source f nodes = .error e ↔ StopsAt f nodes e) ∧
    ((∀ node ∈ nodes, Names f node) → ∃ bs ranges,
      List.Forall₂ (fun node b => f.blocks.find? (·.name.wide = node) = some b) nodes bs ∧
      assembly f nodes = .ok ranges ∧
      List.Forall₂ (fun b range => blockRange f b = .ok range ∧
        range.Within f.text.lines.length) bs ranges ∧
      source f nodes = .ok (bs.flatMap fun b => b.insts.filterMap fun i =>
        (i.dbg.bind m.locations.get?).map fun place => ⟨place.line, place.line⟩)) := by
  have located := located_of_ofText h member
  refine ⟨?_, fun e => assembly_eq_error_iff located, fun e => source_eq_error_iff, ?_⟩
  · simp only [assembly_eq_error_iff located, exists_stopsAt_iff]
  intro named
  obtain ⟨bs, found⟩ := exists_mapM_eq_ok_iff.2 fun node hn => names_iff.1 (named node hn)
  have inside := forall_mem_of_blocks found
  obtain ⟨ranges, lines⟩ := exists_mapM_eq_ok_iff.2 fun b hb => located b (inside b hb)
  refine ⟨bs, ranges, ?_, ?_, ?_, ?_⟩
  · exact (mapM_eq_ok_iff.1 found).imp fun node b => findBlock_eq_ok_iff.1
  · rw [assembly_of_blocks found, lines]
  · refine (mapM_eq_ok_iff.1 lines).imp fun b range there => ⟨there, ?_⟩
    rw [Module.length_lines_of_ofText h member]
    exact LineRange.within_of_locate? (blockRange_eq_ok_iff.1 there)
  · refine bind_eq_ok.2 ⟨bs, found, congrArg Except.ok ?_⟩
    refine List.flatMap_congr fun b hb => List.filterMap_congr fun i hi => ?_
    rw [Module.location_of_ofText h member (inside b hb) hi]

/-- Two blocks with references, one of which leads to no location. -/
def referringBlocks : Text :=
  "define void @f() \x7b\nentry:\n  br label %a, !dbg !1\na:\n  call void @g(), !dbg !2\n" ++
    "  ret void, !dbg !1\n\x7d\n!1 = !DILocation(line: 7)\n"

/-- The second of three nodes names no block; the other two have their lines. -/
theorem highlights_fail_only_at_names_unknown :
    ∃ m f, Module.ofText referringBlocks = .ok m ∧ f ∈ m.funcs ∧
      assembly f [Text.wide "a", Text.wide "x", Text.wide "entry"] =
        .error (.noBlock (Text.wide "x") f.name) ∧
      source f [Text.wide "a", Text.wide "x", Text.wide "entry"] =
        .error (.noBlock (Text.wide "x") f.name) ∧
      assembly f [Text.wide "a", Text.wide "entry"] = .ok [⟨4, 6⟩, ⟨2, 3⟩] ∧
      source f [Text.wide "a", Text.wide "entry"] = .ok [⟨7, 7⟩, ⟨7, 7⟩] := by
  have shown : (Module.ofText referringBlocks).map (fun m => m.funcs.map fun f =>
      ([Text.wide "a", Text.wide "x", Text.wide "entry"].map fun node => decide (Names f node),
        (assembly f [Text.wide "a", Text.wide "entry"]).toOption,
        (source f [Text.wide "a", Text.wide "entry"]).toOption)) =
      .ok [([true, false, true], some [⟨4, 6⟩, ⟨2, 3⟩], some [⟨7, 7⟩, ⟨7, 7⟩])] := by
    decide +kernel
  obtain ⟨m, read, shown⟩ := map_eq_ok.1 shown
  obtain ⟨f, funcs, shown⟩ := List.map_eq_singleton_iff.1 shown
  have member : f ∈ m.funcs := by rw [funcs]; exact List.mem_cons_self
  simp only [List.map_cons, List.map_nil, Prod.mk.injEq, List.cons.injEq, decide_eq_true_eq,
    decide_eq_false_iff_not, and_true] at shown
  obtain ⟨⟨first, unknown, last⟩, ranges, lines⟩ := shown
  have all := highlights_fail_only_at_names read member
  obtain ⟨-, inAssembly, inSource, -⟩ := all [Text.wide "a", Text.wide "x", Text.wide "entry"]
  have stops : StopsAt f [Text.wide "a", Text.wide "x", Text.wide "entry"]
      (.noBlock (Text.wide "x") f.name) :=
    ⟨[Text.wide "a"], _, [Text.wide "entry"], rfl, List.forall_mem_singleton.2 first, unknown, rfl⟩
  have named : ∀ node ∈ [Text.wide "a", Text.wide "entry"], Names f node :=
    List.forall_mem_cons.2 ⟨first, List.forall_mem_singleton.2 last⟩
  obtain ⟨bs, places, -, inAssembly', -, inSource'⟩ := (all _).2.2.2 named
  rw [inAssembly'] at ranges
  rw [inSource'] at lines
  refine ⟨m, f, read, member, (inAssembly _).2 stops, (inSource _).2 stops, ?_, ?_⟩
  · exact inAssembly'.trans (congrArg Except.ok (Option.some.inj ranges))
  · exact inSource'.trans (congrArg Except.ok (Option.some.inj lines))

end Highlight

end FlowReport
