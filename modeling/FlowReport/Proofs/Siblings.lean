import FlowReport.Proofs.Companions
import FlowReport.Proofs.Decompilation

/-!
# The directories beside an input

The directory of the graphs gets its name in two ways. A report makes it from the whole path of its
input: the path as it is written if the last name has no ending, and else the path without the
ending, written anew. The decompiler knows the last name alone, and makes the name from that.
`graphsName_eq_iff` says for which paths the two agree: for those with an ending, and of the others
for those that are written with their last name at the end. Where the text behind the last slash is
the name of a file, the two agree and the directories stand beside that file
(`directories_beside_input`).
-/

namespace FlowReport

open FileTree FlowReport.Action Toolchain

namespace Path

/-! ## Stems -/

theorem stem_ne_nil {p : Path} (named : p.name ≠ []) : p.stem ≠ [] := by
  unfold stem
  rcases splitName_cases p.name with whole | ⟨front, ending, -, nonempty, -, -, split⟩
  · rwa [whole]
  · rwa [split]

/-- A name without an ending is its own stem. -/
theorem stem_of_suffix {p : Path} (plain : p.suffix = []) : p.stem = p.name := by
  rcases splitName_cases p.name with whole | ⟨front, ending, -, -, -, -, split⟩
  · rw [stem, whole]
  · rw [suffix, split] at plain
    cases plain

/-- A path with an ending has a last name. -/
theorem exists_concat_of_suffix {p : Path} (ending : p.suffix ≠ []) :
    ∃ root front last, p = ⟨root, front ++ [last]⟩ := by
  obtain ⟨root, names⟩ := p
  rcases List.eq_nil_or_concat names with rfl | ⟨front, last, rfl⟩
  · exact absurd rfl ending
  · exact ⟨root, front, last, by rw [List.concat_eq_append]⟩

/-- The last name of a path that was read is read alone as the same name. -/
theorem name_ofText_name (s : Text) : (ofText (ofText s).name).name = (ofText s).name := by
  have proper : (ofText s).name ≠ ['.'] := by
    unfold name
    cases last : (ofText s).names.getLast? with
    | none => exact (List.cons_ne_nil _ _).symm
    | some name => exact (proper_ofText s name (List.mem_of_getLast? last)).2.1
  rw [ofText_of_unbroken (unbroken_name s)]
  by_cases none : (ofText s).name = []
  · rw [none]
    rfl
  · rw [if_neg (not_or.2 ⟨none, proper⟩)]
    rfl

/-! ## Written paths and their last names -/

/-- What stands behind the last slash is the name of a file, unless it is nothing or leads elsewhere. -/
theorem fileName_base {s : Text} (nonempty : base s ≠ []) (dot : base s ≠ ['.'])
    (up : base s ≠ "..".toList) : FileName (base s) where
  nonempty := nonempty
  dot := dot
  up := up
  unbroken := Text.not_mem_of_mem_split _ (List.getLast_mem (Text.split_ne_nil '/' s))

/-- The path to a file is that of its directory and the text behind the last slash. -/
theorem ofText_of_file {s : Text} (file : FileName (base s)) :
    ofText s = ⟨(above s).root, (above s).names ++ [base s]⟩ := by
  have cut : Text.split '/' s = (Text.split '/' s).dropLast ++ [base s] :=
    (List.dropLast_append_getLast (Text.split_ne_nil '/' s)).symm
  have last : [base s].filter (fun name => name ≠ [] ∧ name ≠ ['.']) = [base s] := by
    simp [file.nonempty, file.dot]
  rw [ofText, cut, List.filter_append, last, above]

theorem name_of_file {s : Text} (file : FileName (base s)) : (ofText s).name = base s := by
  rw [ofText_of_file file, name_concat]

theorem parent_of_file {s : Text} (file : FileName (base s)) : (ofText s).parent = above s := by
  rw [ofText_of_file file, parent_concat]

/-- In a path that is written, whatever the last name is, the directory stands before the last slash
and the name behind it. -/
theorem above_base_text {root : Root} {front : List Text} {last : Text}
    (proper : (⟨root, front⟩ : Path).Proper) (nonempty : last ≠ []) (unbroken : '/' ∉ last) :
    above (⟨root, front ++ [last]⟩ : Path).text = ⟨root, front⟩ ∧
      base (⟨root, front ++ [last]⟩ : Path).text = last := by
  have whole : ∀ name ∈ front ++ [last], name ≠ [] ∧ '/' ∉ name := by
    intro name member
    rcases List.mem_append.1 member with above | here
    · exact ⟨(proper name above).1, (proper name above).2.2⟩
    · rw [List.mem_singleton.1 here]
      exact ⟨nonempty, unbroken⟩
  obtain ⟨start, pieces⟩ := split_text (p := ⟨root, front ++ [last]⟩) whole (by simp)
  rw [← List.append_assoc] at pieces
  constructor
  · rw [above, start, pieces, List.dropLast_concat,
      filter_pieces fun name member => ⟨(proper name member).1, (proper name member).2.1⟩]
  · simp only [base, pieces, List.getLast_concat]

/-- Without its ending a path is written anew, and what stands behind the last slash is the stem. The
stem may be one or two dots, which would lead nowhere or up if they were read as a name. -/
theorem written_stem {s : Text} (ending : (ofText s).suffix ≠ []) :
    above ((ofText s).withSuffix []).text = (ofText s).parent ∧
      base ((ofText s).withSuffix []).text = (ofText s).stem := by
  have proper := proper_ofText s
  have unbroken : '/' ∉ (ofText s).stem := unbroken_splitName (unbroken_name s)
  obtain ⟨root, front, last, path⟩ := exists_concat_of_suffix ending
  rw [path] at proper unbroken ⊢
  have named : last ≠ [] := (proper last List.mem_concat_self).1
  have stem := stem_ne_nil (p := ⟨root, front ++ [last]⟩) (by rwa [name_concat])
  have renamed : (⟨root, front ++ [last]⟩ : Path).withSuffix [] =
      ⟨root, front ++ [(⟨root, front ++ [last]⟩ : Path).stem]⟩ := by
    rw [withSuffix, if_neg (by simp), List.append_nil, List.dropLast_concat]
  rw [renamed, parent_concat]
  exact above_base_text (fun name member => proper name (List.mem_append_left _ member)) stem
    unbroken

/-- A path leads to something in a directory, from wherever it is followed: to the last of its
names, which does not lead up. -/
structure EntryOf (p directory : Path) : Prop where
  parent : p.parent = directory
  place (start : Address) : place start p = place start directory ++ [p.name]

theorem entryOf_concat {root : Root} {names : List Text} {last : Text}
    (down : last ≠ "..".toList) : (⟨root, names ++ [last]⟩ : Path).EntryOf ⟨root, names⟩ where
  parent := parent_concat root names last
  place start := by
    rw [name_concat]
    exact (place_append start ⟨root, names⟩ [last]).trans (foldl_down (by simpa using down.symm) _)

end Path

namespace Input

variable {path : Text}

theorem base_of_other (other : path ≠ standard) : base path =
    if (Path.ofText path).suffix = [] then path else ((Path.ofText path).withSuffix []).text := by
  rw [base, if_neg other]

/-- The name of the file that an input is staged under has the stem of the input. -/
theorem stem_fileName (other : path ≠ standard) :
    (Path.ofText (fileName path)).stem = (Path.ofText path).stem := by
  rw [fileName, if_neg other, Path.stem, Path.name_ofText_name]
  rfl

/-- The companions of an input are named after the stem of the file that it is staged under, if and
only if the input has an ending or is written with its last name at the end. -/
theorem base_eq_stem_iff : Path.base (base path) = (Path.ofText (fileName path)).stem ↔
    (Path.ofText path).suffix ≠ [] ∨ Path.base path = (Path.ofText path).name := by
  by_cases input : path = standard
  · subst input
    exact iff_of_true (by decide) (.inr (by decide))
  rw [base_of_other input, stem_fileName input]
  by_cases plain : (Path.ofText path).suffix = []
  · rw [if_pos plain, Path.stem_of_suffix plain]
    simp [plain]
  · rw [if_neg plain]
    exact iff_of_true (Path.written_stem plain).2 (.inl plain)

/-- The companions of a file stand in its directory. -/
theorem above_base (file : FileName (Path.base path)) :
    Path.above (base path) = (Path.ofText path).parent := by
  by_cases input : path = standard
  · subst input
    decide
  rw [base_of_other input]
  split
  · exact (Path.parent_of_file file).symm
  · rename_i ending
    exact (Path.written_stem ending).1

/-- The file that an input is staged under has a name if the input is a file. -/
theorem fileName_of_file (file : FileName (Path.base path)) : FileName (fileName path) := by
  by_cases input : path = standard
  · rw [fileName, if_pos input]
    exact ⟨by decide, by decide, by decide, by decide⟩
  · rw [fileName, if_neg input, Path.name_of_file file]
    exact file

end Input

namespace Report

variable {r : Report}

theorem name_companion {ending : Text} (long : 2 < ending.length) (unbroken : '/' ∉ ending)
    (path : Text) : (Input.companion path ending).name = Path.base (Input.base path) ++ ending := by
  rw [companion_eq long unbroken, Path.name_concat]

theorem entryOf_companion {path ending : Text} (file : FileName (Path.base path))
    (long : 2 < ending.length) (unbroken : '/' ∉ ending) :
    (Input.companion path ending).EntryOf (Path.ofText path).parent := by
  rw [companion_eq long unbroken, ← Input.above_base file]
  exact Path.entryOf_concat (append_ne_up long _)

/-- The decompiler's name for the directory of the graphs is the name of that directory, if and only
if the input has an ending or is written with its last name at the end. -/
theorem graphsName_eq_iff : graphsName r.assemblyName = r.graphs.name ↔
    (Path.ofText r.path).suffix ≠ [] ∨ Path.base r.path = (Path.ofText r.path).name := by
  rw [graphs, name_companion (by decide) (by decide), ← Input.base_eq_stem_iff, eq_comm]
  exact List.append_left_inj _

/-- A report about a path, with an empty module. -/
def bareReport (path : Text) : Report :=
  { path, assembly := ⟨[], [], [], none, [], [], [], []⟩, style := [] }

/-- With a slash at the end and no ending before it the graphs are read from inside the path. -/
example : (bareReport "d/").graphs = ⟨.relative, ["d", "_graphs"]⟩ ∧
    graphsName (bareReport "d/").assemblyName = "d_graphs".toList := by decide

/-- The pages and the graphs of a file are in two directories beside it, and the decompiler finds the
primitives in a directory of the same name as the one that the report reads them from. A dash, for
standard input, is a file like any other: its directories are those of `stdin`, where the report is
made. -/
theorem directories_beside_input {r : Report} (nonempty : Path.base r.path ≠ [])
    (dot : Path.base r.path ≠ ['.']) (up : Path.base r.path ≠ "..".toList) :
    graphsName r.assemblyName = r.graphs.name ∧
    (Path.ofText r.path).EntryOf (Path.ofText r.path).parent ∧
    r.output.EntryOf (Path.ofText r.path).parent ∧
    r.graphs.EntryOf (Path.ofText r.path).parent ∧
    r.output.name ≠ r.graphs.name ∧
    ∀ (w w' : World) function prims output, w.Settled → '/' ∉ function →
      perform (r.decompile function prims) w = (.ok output, w') →
      ∃ call, w'.calls = w.calls ++ [call] ∧ call.staged = some [
        ([r.assemblyName], Utf8.encode r.assembly.text),
        ([r.graphs.name, function ++ ".json"], Utf8.encode (Primitive.document prims))] := by
  have file := Path.fileName_base nonempty dot up
  have named : graphsName r.assemblyName = r.graphs.name :=
    graphsName_eq_iff.2 (.inr (Path.name_of_file file).symm)
  refine ⟨named, ?_, entryOf_companion file (by decide) (by decide),
    entryOf_companion file (by decide) (by decide), ?_, ?_⟩
  · rw [Path.parent_of_file file, Path.ofText_of_file file]
    exact Path.entryOf_concat up
  · intro same
    rw [output, graphs, name_companion (by decide) (by decide),
      name_companion (by decide) (by decide)] at same
    exact absurd (List.append_cancel_left same) (by decide)
  · intro w w' function prims output settled plain ran
    obtain ⟨call, _, calls, asked, -⟩ := ensures_decompile settled.rests settled.straight
      (Input.fileName_of_file file) plain w output w' rfl ran
    obtain ⟨bytes, staged, records⟩ := asked.staged
    rw [records.written] at staged
    exact ⟨call, calls, named ▸ staged⟩

/-- A name of two dots and an ending, and a name that ends with a dot and has no ending; and a dash. -/
theorem directories_beside_input_dots :
    (Path.base (bareReport "a//./...ll").path ≠ [] ∧
      Path.base (bareReport "a//./...ll").path ≠ ['.'] ∧
      Path.base (bareReport "a//./...ll").path ≠ "..".toList) ∧
    graphsName (bareReport "a//./...ll").assemblyName = ".._graphs".toList ∧
    (bareReport "a//./...ll").graphs.EntryOf ⟨.relative, ["a"]⟩ ∧
    (bareReport "./b//.c.d.").graphs.EntryOf ⟨.relative, ["b"]⟩ ∧
    graphsName (bareReport "./b//.c.d.").assemblyName = ".c.d._graphs".toList ∧
    graphsName (bareReport "-").assemblyName = "stdin_graphs".toList := by
  have ended := directories_beside_input (r := bareReport "a//./...ll")
    (by decide) (by decide) (by decide)
  have plain := directories_beside_input (r := bareReport "./b//.c.d.")
    (by decide) (by decide) (by decide)
  have input := directories_beside_input (r := bareReport "-") (by decide) (by decide) (by decide)
  refine ⟨⟨by decide, by decide, by decide⟩, ended.1.trans ?_, ended.2.2.2.1, plain.2.2.2.1,
    plain.1.trans ?_, input.1.trans ?_⟩ <;> decide

end Report

end FlowReport
