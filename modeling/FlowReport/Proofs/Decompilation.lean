import FlowReport.Proofs.Effects
import FlowReport.Proofs.Records

/-!
# Calls of the decompiler

What a call of the decompiler sees: its words, and a new directory with the assembly and the
primitives and nothing else. The directory is gone behind the call, and the rest of the tree is as it
was.
-/

namespace FlowReport

open FileTree FlowReport.Action

namespace World

/-- The calls of a kind that were made so far. -/
structure Heard (w₀ : World) (kind : Call → Bool) (calls : List Call) (w : World) : Prop where
  rests : Rests w₀ w
  heard : w.calls.filter kind = calls

/-- What leaves the calls of a kind alone: all but a call of that kind. -/
theorem stable_heard (w₀ : World) (kind : Call → Bool) (calls : List Call) :
    Stable w₀ ⟨fun _ _ => True, fun c => kind c = false⟩ (Heard w₀ kind calls) where
  stays h := h.rests.stays
  log lines h := ⟨(stable_rests w₀).log lines h.rests, h.heard⟩
  call c h other := by
    refine ⟨(stable_rests w₀).call c h.rests trivial, ?_⟩
    show List.filter kind (_ ++ [c]) = calls
    rw [List.filter_append, h.heard, List.filter_cons_of_neg (Bool.eq_false_iff.1 other),
      List.filter_nil, List.append_nil]
  put h _ accepts := ⟨(stable_rests w₀).put h.rests trivial accepts, h.heard⟩
  clear h free := ⟨(stable_rests w₀).clear h.rests free, h.heard⟩

/-- The calls that were made are old ones and calls of a kind. -/
structure Added (w₀ : World) (kind : Call → Prop) (calls : List Call) (w : World) : Prop where
  rests : Rests w₀ w
  added : ∃ made, w.calls = calls ++ made ∧ ∀ call ∈ made, kind call

/-- What leaves other calls alone: all but a call of another kind. -/
theorem stable_added (w₀ : World) (kind : Call → Prop) (calls : List Call) :
    Stable w₀ ⟨fun _ _ => True, kind⟩ (Added w₀ kind calls) where
  stays h := h.rests.stays
  log lines h := ⟨(stable_rests w₀).log lines h.rests, h.added⟩
  call c h own := by
    obtain ⟨rests, made, same, all⟩ := h
    refine ⟨(stable_rests w₀).call c rests trivial, made ++ [c], ?_, ?_⟩
    · rw [same, List.append_assoc]
    · intro call member
      rcases List.mem_append.1 member with old | new
      · exact all call old
      · rw [List.mem_singleton.1 new]
        exact own
  put h _ accepts := ⟨(stable_rests w₀).put h.rests trivial accepts, h.added⟩
  clear h free := ⟨(stable_rests w₀).clear h.rests free, h.added⟩

end World

namespace FileTree

variable {t : FileTree} {start d : Address} {name : Text}

/-- Making a directory in another one makes just that, or nothing. -/
theorem provideDirectories_child (home : t.Reached start) (there : t.Holds d .directory)
    (straight : "..".toList ∉ d ++ [name]) :
    (t.provideDirectories start ⟨.slash, d ++ [name]⟩).1 = t ∨
      (t.provideDirectories start ⟨.slash, d ++ [name]⟩).1 = t.put (d ++ [name]) .directory ∧
        t.Accepts (d ++ [name]) .directory := by
  apply provideDirectories_induction
    (P := fun t' => t' = t ∨ t' = t.put (d ++ [name]) .directory ∧ t.Accepts (d ++ [name]) .directory)
  · rintro t' (rfl | ⟨rfl, accepts⟩)
    · exact home
    · exact home.put accepts
  · intro t' front before above accepts
    have here : place start ⟨.slash, front⟩ = front :=
      foldl_down (fun up => straight (above.subset up)) []
    rw [here] at accepts ⊢
    have known : t'.Holds d .directory := by
      rcases before with rfl | ⟨rfl, new⟩
      · exact there
      · exact there.put new (.inl rfl)
    rcases List.prefix_concat_iff.1 above with rfl | above
    · rcases before with rfl | ⟨rfl, new⟩
      · exact .inr ⟨rfl, accepts⟩
      · exact absurd (get?_put_self new) accepts.not_directory
    · exact absurd (known.get?_above above) accepts.not_directory
  · exact .inl rfl

theorem free_below (closed : t.Closed) (free : t.get? d = none) {b : Address} (below : d <+: b) :
    t.get? b = none := by
  cases there : t.get? b with
  | none => rfl
  | some node => exact absurd below ((closed.holds there).not_above_of_free free)

/-- Nothing is below a free place. -/
theorem filesBelow_free (closed : t.Closed) (free : t.get? d = none) : t.filesBelow d = [] := by
  refine List.filterMap_eq_nil_iff.2 ?_
  rintro ⟨b, node⟩ member
  cases node with
  | directory => rfl
  | file content =>
    refine if_neg fun below => ?_
    exact get?_ne_none_of_mem member (free_below closed free (List.isPrefixOf_iff_prefix.1 below))

/-- A new file is one more below a directory. -/
theorem filesBelow_put_file {names : List Text} {content : Bytes}
    (free : t.get? (d ++ names) = none) :
    (t.put (d ++ names) (.file content)).filesBelow d = t.filesBelow d ++ [(names, content)] := by
  unfold filesBelow
  rw [entries_put free, List.filterMap_append]
  simp

theorem filesBelow_put_directory {b : Address} (free : t.get? b = none) :
    (t.put b .directory).filesBelow d = t.filesBelow d := by
  unfold filesBelow
  rw [entries_put free, List.filterMap_append]
  simp

/-- What is below a new directory after a file and a directory with a file were put into it. -/
theorem filesBelow_staged {t' : FileTree} {file graphs record : Text} {content document : Bytes}
    (closed : t.Closed) (free : t.get? d = none)
    (accepts : (t.put d .directory).Accepts (d ++ [file]) (.file content))
    (made : t' = (t.put d .directory).put (d ++ [file]) (.file content) ∨
      t' = ((t.put d .directory).put (d ++ [file]) (.file content)).put (d ++ [graphs]) .directory ∧
        ((t.put d .directory).put (d ++ [file]) (.file content)).Accepts (d ++ [graphs]) .directory)
    (last : t'.Accepts (d ++ [graphs, record]) (.file document)) :
    (t'.put (d ++ [graphs, record]) (.file document)).filesBelow d =
      [([file], content), ([graphs, record], document)] := by
  have new : ∀ {names : List Text}, names ≠ [] →
      (t.put d .directory).get? (d ++ names) = none := by
    intro names some
    rw [get?_put_of_ne (by simpa using some)]
    exact free_below closed free (List.prefix_append _ _)
  have front : t'.get? (d ++ [graphs]) = some .directory := by
    refine last.reached _ ?_ (by simp)
    exact (List.prefix_append_right_inj d).2 (List.prefix_append [graphs] [record])
  rcases made with rfl | ⟨rfl, room⟩
  · -- without the directory there is no place for the last file
    exfalso
    by_cases same : graphs = file
    · rw [same, get?_put_self accepts] at front
      cases front
    · rw [get?_put_of_ne (by simpa using same), new (by simp)] at front
      cases front
  · have there : ((t.put d .directory).put (d ++ [file]) (.file content)).get? (d ++ [graphs]) =
        none := room.room.resolve_right (by rintro ⟨_, _, _, file⟩; cases file)
    rw [filesBelow_put_file, filesBelow_put_directory there, filesBelow_put_file (new (by simp)),
      filesBelow_put_directory free, filesBelow_free closed free]
    · rfl
    · rw [get?_put_of_ne (by simp), get?_put_of_ne (by simp), new (by simp)]

end FileTree

namespace Toolchain

open World

variable {w₀ w w' : World} {config : Config}

/-- The call that a program would see. -/
def callIn (config : Config) (command : List Text) (directory : Option Path) (w : World) : Call where
  command
  env := config.environment w.env
  directory
  staged := directory.map fun d => w.tree.filesBelow d.names
  earlier := w.calls.length

/-- A call is made once, and is answered as the world says. -/
theorem ensures_call {command : List Text} {directory : Option Path} (rests : Rests w₀ w) :
    Ensures (· = w) (call config command directory) fun answer w' =>
      w'.calls = w.calls ++ [callIn config command directory w] ∧
        w₀.respond (callIn config command directory w) = answer := by
  apply Ensures.get_bind
  intro w' same
  obtain rfl : w = w' := same.symm
  have heard : Heard w₀ (fun _ => true) (w.calls ++ [callIn config command directory w])
      { w with calls := w.calls ++ [callIn config command directory w] } :=
    ⟨(stable_rests w₀).call _ rests trivial, List.filter_eq_self.2 fun _ _ => rfl⟩
  refine (Ensures.set (Q := fun _ => Heard w₀ (fun _ => true)
    (w.calls ++ [callIn config command directory w])) heard).bind fun _ => ?_
  apply Ensures.ite
  · intro _
    exact .bind (Q := fun _ _ => False) (.throw _) fun _ _ _ _ never => never.elim
  intro _
  rw [← rests.stays.respond]
  have calls : ∀ {w'}, Heard w₀ (fun _ => true) (w.calls ++ [callIn config command directory w]) w' →
      w'.calls = w.calls ++ [callIn config command directory w] :=
    fun h => (List.filter_eq_self.2 fun _ _ => rfl).symm.trans h.heard
  split
  · rename_i responds
    exact .pure _ fun _ h => ⟨calls h, responds⟩
  · rename_i outcome responds
    -- what a program writes is no call
    refine Ensures.bind (.of_preserves (.forM fun write _ => ?_)) fun _ =>
      .pure _ fun _ h => ⟨calls h, responds⟩
    apply preserves_provide (stable_heard w₀ _ _)
    obtain ⟨p, node⟩ := write
    cases node with
    | directory => exact fun _ _ => trivial
    | file content => exact ⟨fun _ _ => trivial, trivial⟩

/-- A program that ran was called once, and its output is what it said. -/
theorem ensures_run {command : List Text} {directory : Option Path} (rests : Rests w₀ w) :
    Ensures (· = w) (run config command directory) fun output w' => ∃ outcome,
      w'.calls = w.calls ++ [callIn config command directory w] ∧
        w₀.respond (callIn config command directory w) = some outcome ∧ outcome.status = 0 ∧
          outcome.output = output := by
  have logged : Ensures (· = w) (log .debug .programs ("running: " ++ commandLine command))
      fun _ v => v.calls = w.calls ∧
        callIn config command directory v = callIn config command directory w ∧ Rests w₀ v := by
    rintro _ _ _ rfl ran
    cases ran
    exact ⟨rfl, rfl, (stable_rests w₀).log _ rests⟩
  refine logged.bind fun _ => .pointwise ?_
  rintro v ⟨calls, same, rests⟩
  rw [← calls, ← same]
  refine (ensures_call rests).bind ?_
  intro answer
  cases answer with
  | none => exact .throw _
  | some outcome =>
    apply Ensures.ite
    · intro fine
      exact .pure _ fun _ h => ⟨outcome, h.1, h.2, fine, rfl⟩
    · intro _
      extract_lets
      exact .ite (fun _ => .bind (.any _) fun _ => .throw _) fun _ => .throw _

/-- What the decompiler is asked: to decompile a function of an assembly file, in a directory that
holds the assembly and, in a directory named for it, the records of some primitives. -/
structure Asked (w₀ : World) (config : Config) (assemblyName assembly function : Text)
    (prims : List Primitive) (call : Call) : Prop where
  command : call.command = [config.decompiler, "-funcs", function, assemblyName]
  directory : ∃ name, call.directory = some ⟨.slash, w₀.temporary ++ [name]⟩
  staged : ∃ bytes, call.staged = some [
      ([assemblyName], Utf8.encode assembly),
      ([(Path.ofText assemblyName).stem ++ "_graphs", function ++ ".json"], bytes)] ∧
    PrimitiveFile.Records prims bytes

/-- The name of a file in a directory: a name that leads down. -/
structure FileName (s : Text) : Prop where
  nonempty : s ≠ []
  dot : s ≠ ['.']
  up : s ≠ "..".toList
  unbroken : '/' ∉ s

theorem FileName.child {s : Text} (h : FileName s) (p : Path) :
    p.child s = ⟨p.root, p.names ++ [s]⟩ := by
  rw [Path.child_of_unbroken h.unbroken, if_neg]
  rintro (none | dot)
  · exact h.nonempty none
  · exact h.dot dot

/-- After the staging a new directory holds the assembly and the primitives and nothing else. -/
theorem ensures_staged {t : FileTree} {d : Address} {assemblyName assembly function : Text}
    {prims : List Primitive} (start : Still w₀ (t.put d .directory) w) (closed : t.Closed)
    (free : t.get? d = none) (reached : t.Reached d) (straight : "..".toList ∉ d)
    (file : FileName assemblyName) (plain : '/' ∉ function) :
    Ensures (· = w) (do
      writeText ((⟨.slash, d⟩ : Path).child assemblyName) assembly
      PrimitiveFile.save (PrimitiveFile.path
        ((⟨.slash, d⟩ : Path).child (graphsName assemblyName)) function) prims) fun _ v =>
      (Rests w₀ v ∧ v.calls = w.calls) ∧ v.tree.filesBelow d = [
        ([assemblyName], Utf8.encode assembly),
        ([graphsName assemblyName, function ++ ".json"],
          Utf8.encode (Primitive.document prims))] := by
  have place_eq : ∀ names, "..".toList ∉ names →
      place w₀.directory ⟨.slash, d ++ names⟩ = d ++ names := by
    intro names inside
    refine foldl_down (fun up => ?_) []
    rcases List.mem_append.1 up with up | up
    · exact straight up
    · exact inside up
  have graphs := (ne_up_of_long (length_graphsName assemblyName)).symm
  have record : "..".toList ≠ function ++ ".json".toList := (append_ne_up (by decide) function).symm
  have parent : (⟨.slash, d ++ [graphsName assemblyName, function ++ ".json".toList]⟩ :
      Path).parent = ⟨.slash, d ++ [graphsName assemblyName]⟩ := by
    rw [Path.parent, List.dropLast_append_of_ne_nil (by simp)]
    rfl
  have new : t.Accepts d .directory := ⟨reached, .inl free⟩
  rw [file.child, path_staged _ _ plain, PrimitiveFile.save, parent]
  refine (ensures_writeBytes_tree start).bind fun _ => .fact fun accepts => .pointwise ?_
  rw [place_eq _ (by simpa using file.up.symm)] at accepts ⊢
  rintro v ⟨still, calls⟩
  have made := provideDirectories_child (still.same ▸ still.rests.stays.home.reached)
    ((holds_put new).put accepts (.inl rfl))
    (show "..".toList ∉ d ++ [graphsName assemblyName] by simpa using ⟨straight, graphs⟩)
  refine (ensures_provideDirectories_tree still).bind fun _ => .pointwise ?_
  rintro v' ⟨still, calls'⟩
  refine (ensures_writeBytes_tree still).mono (fun _ h => h) ?_
  rintro _ u ⟨last, ⟨rests, same⟩, calls''⟩
  rw [place_eq _ (by simpa using ⟨graphs, record⟩)] at last same
  rw [same]
  exact ⟨⟨rests, calls''.trans (calls'.trans calls)⟩,
    filesBelow_staged closed free accepts made last⟩

/-- What the decompiler is asked, and that it answers with what the action returns. -/
theorem ensures_decompile {assemblyName assembly function : Text} {prims : List Primitive}
    (rests : Rests w₀ w) (straight : "..".toList ∉ w₀.temporary) (file : FileName assemblyName)
    (plain : '/' ∉ function) :
    Ensures (· = w) (decompile config assemblyName assembly function prims) fun output w' =>
      ∃ call outcome, w'.calls = w.calls ++ [call] ∧
        Asked w₀ config assemblyName assembly function prims call ∧
        w₀.respond call = some outcome ∧ outcome.status = 0 ∧ outcome.output = output := by
  have free := freshName_free w
  have temporary : w.temporary = w₀.temporary := rests.stays.temporary
  have named := straight_temporary straight (freshName_ne w)
  rw [← temporary] at named
  have reached : w.tree.Reached (w.temporary ++ [freshName w]) :=
    temporary ▸ rests.temporary.reached.below rests.temporary.node _
  have start : Still w₀ (w.tree.put (w.temporary ++ [freshName w]) .directory)
      { w with tree := w.tree.put (w.temporary ++ [freshName w]) .directory } :=
    ⟨(stable_rests w₀).put rests trivial ⟨reached, .inl free⟩, rfl⟩
  refine (ensures_withDirectory (Q := fun output v => ∃ call outcome,
    v.calls = w.calls ++ [call] ∧ Asked w₀ config assemblyName assembly function prims call ∧
      w₀.respond call = some outcome ∧ outcome.status = 0 ∧ outcome.output = output) ?_).mono
    (fun _ h => h) ?_
  · rw [← bind_assoc]
    refine (ensures_staged start rests.closed free reached named file plain).bind ?_
    intro _
    apply Ensures.pointwise
    rintro v ⟨⟨rests, calls⟩, staged⟩
    refine (ensures_run rests).mono (fun _ h => h) ?_
    rintro output v' ⟨outcome, called, answered, fine, said⟩
    rw [calls] at called
    refine ⟨_, outcome, called, ⟨rfl, ⟨freshName w, ?_⟩, ?_⟩, answered, fine, said⟩
    · rw [← temporary]
      rfl
    · exact ⟨_, congrArg some staged, PrimitiveFile.records_document prims⟩
  · rintro output _ ⟨v, asked, rfl⟩
    exact asked

/-- The tree is as it was, and the calls that were made since had directories that are not there. -/
def Untouched (w₀ w : World) : Prop :=
  Still w₀ w₀.tree w ∧ Added w₀
    (fun call => ∃ d, call.directory = some d ∧ w₀.tree.get? d.names = none) w₀.calls w

/-- A decompiler that is confined changes nothing outside the directory that it is given, which is
new. -/
theorem still_decompile (settled : w.Settled) (confined : w.Confined)
    {assemblyName function : Text} (unbroken : '/' ∉ assemblyName)
    (inner : Path.Inner 1 (Path.above function)) (assembly : Text) (prims : List Primitive) :
    (perform (decompile config assemblyName assembly function prims) w).2.tree = w.tree ∧
      ∃ made, (perform (decompile config assemblyName assembly function prims) w).2.calls =
        w.calls ++ made ∧
        ∀ call ∈ made, ∃ d, call.directory = some d ∧ w.tree.get? d.names = none := by
  have keeps : Preserves (Untouched w)
      (decompile config assemblyName assembly function prims) := by
    refine preserves_decompile ((stable_still w w.tree).and (stable_added w _ w.calls))
      (staging_confined confined settled.straight unbroken inner
        (fun b above => ⟨above, trivial⟩) ?_) assembly prims
    rintro call name - directory ⟨v, ⟨still, -⟩, free⟩
    exact ⟨trivial, _, directory, still.same ▸ free⟩
  obtain ⟨still, added⟩ := keeps w ⟨⟨settled.rests, rfl⟩, settled.rests, [], by simp⟩
  exact ⟨still.same, added.added⟩

end Toolchain

end FlowReport
