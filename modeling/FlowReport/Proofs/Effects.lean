import FlowReport.Proofs.InnerNames
import FlowReport.Proofs.Stability
import FlowReport.Toolchain

/-!
# What programs leave alone

What a program writes is up to the program, so the calls of programs keep a stable property if the
scope allows what each program may write: nothing at an address that the programs spare, or, where
the programs are confined, nothing outside the directory that they are given.
-/

namespace FlowReport

open FileTree FlowReport.Action

namespace World

variable {w₀ : World} {s : Scope} {a : Address} {node : Node}

/-- No program writes a file at the address. -/
def Spares (w₀ : World) (a : Address) : Prop :=
  ∀ call outcome, w₀.respond call = some outcome → ∀ p content,
    (p, Node.file content) ∈ outcome.writes → place w₀.directory p ≠ a

/-- A program that is given a directory writes only there. -/
def Confined (w₀ : World) : Prop :=
  ∀ call outcome d, w₀.respond call = some outcome → call.directory = some d →
    ∀ write ∈ outcome.writes, ∃ rest, write.1 = ⟨d.root, d.names ++ rest⟩ ∧ "..".toList ∉ rest

/-- The calls of a command in a directory are within the scope, with all that the program writes. -/
def Allows (w₀ : World) (s : Scope) (command : List Text) (directory : Option Path) : Prop :=
  ∀ call, call.command = command → call.directory = directory →
    s.calls call ∧ ∀ outcome, w₀.respond call = some outcome →
      ∀ write ∈ outcome.writes, s.Provides w₀.directory write.1 write.2

/-- The directories that are made on the way to a place in a directory are above the directory, or
in it. -/
theorem makes_below {names rest : List Text} (straight : "..".toList ∉ names)
    (inside : "..".toList ∉ rest) (start : Address)
    (above : ∀ b, b <+: names → s.puts b .directory)
    (below : ∀ b, names <+: b → s.puts b .directory) :
    s.Makes start ⟨.slash, names ++ rest⟩ := by
  intro front hfront
  have direct : "..".toList ∉ front := by
    intro up
    rcases List.mem_append.1 (hfront.subset up) with up | up
    · exact straight up
    · exact inside up
  have here : place start ⟨.slash, front⟩ = front := foldl_down direct []
  rw [here]
  rcases List.prefix_or_prefix_of_prefix hfront (List.prefix_append names rest) with h | h
  · exact above front h
  · exact below front h

theorem Scope.makes_sparing {start : Address} (p : Path) :
    Scope.Makes (.sparing a node) start p := fun _ _ => .inr (.inl rfl)

theorem allows_everything {command : List Text} {directory : Option Path} :
    w₀.Allows .everything command directory := by
  intro call _ _
  refine ⟨trivial, ?_⟩
  rintro outcome _ ⟨p, new⟩ _
  cases new with
  | directory => exact fun _ _ => trivial
  | file content => exact ⟨fun _ _ => trivial, trivial⟩

/-- A file that is spared is kept by all programs. -/
theorem Spares.allows (spares : node = .directory ∨ w₀.Spares a) (command : List Text)
    (directory : Option Path) :
    w₀.Allows (.sparing a node) command directory := by
  intro call _ _
  refine ⟨trivial, ?_⟩
  rintro outcome responds ⟨p, new⟩ member
  cases new with
  | directory => exact Scope.makes_sparing _
  | file content =>
    exact ⟨Scope.makes_sparing _,
      spares.imp_right fun spares => .inr (spares _ _ responds p content member)⟩

theorem Allows.mono {s' : Scope} {command : List Text} {directory : Option Path}
    (h : w₀.Allows s command directory) (puts : ∀ b new, s.puts b new → s'.puts b new)
    (calls : ∀ call, call.command = command → call.directory = directory → s'.calls call) :
    w₀.Allows s' command directory := by
  intro call hc hd
  refine ⟨calls call hc hd, ?_⟩
  rintro outcome responds ⟨p, new⟩ member
  have provides := (h call hc hd).2 outcome responds _ member
  cases new with
  | directory => exact fun front above => puts _ _ (provides front above)
  | file content =>
    exact ⟨fun front above => puts _ _ (provides.1 front above), puts _ _ provides.2⟩

/-- What is within a directory of its own and above it is all that a confined program needs. -/
theorem Confined.allows (confined : w₀.Confined) {command : List Text} {names : List Text}
    (straight : "..".toList ∉ names) (above : ∀ b, b <+: names → s.puts b .directory)
    (below : ∀ b new, names <+: b → s.puts b new)
    (calls : ∀ call, call.command = command → call.directory = some ⟨.slash, names⟩ →
      s.calls call) :
    w₀.Allows s command (some ⟨.slash, names⟩) := by
  intro call hc hd
  refine ⟨calls call hc hd, ?_⟩
  rintro outcome responds ⟨p, new⟩ member
  obtain ⟨rest, rfl, inside⟩ := confined call outcome _ responds hd _ member
  have makes : ∀ rest, "..".toList ∉ rest → s.Makes w₀.directory ⟨.slash, names ++ rest⟩ :=
    fun rest inside => makes_below straight inside _ above fun b => below b .directory
  cases new with
  | directory => exact makes rest inside
  | file content =>
    refine ⟨fun front hfront => makes rest inside front (hfront.trans (List.dropLast_prefix _)), ?_⟩
    apply below
    have here : place w₀.directory ⟨.slash, names ++ rest⟩ = names ++ rest := by
      refine foldl_down (fun up => ?_) []
      rcases List.mem_append.1 up with up | up
      · exact straight up
      · exact inside up
    rw [here]
    exact List.prefix_append _ _

end World

namespace Toolchain

open World

variable {w₀ : World} {s : Scope} {I : World → Prop} {a : Address} {node : Node} {config : Config}

/-- A call is noted, and then the program provides what it writes. -/
theorem preserves_call_of {command : List Text} {directory : Option Path}
    (noted : ∀ c : Call, c.command = command → c.directory = directory →
      ∀ w, I w → I { w with calls := w.calls ++ [c] })
    (provides : ∀ w, I w → ∀ (c : Call) outcome, c.command = command → c.directory = directory →
      w.respond c = some outcome → ∀ write ∈ outcome.writes, Preserves I (provide write.1 write.2)) :
    Preserves I (call config command directory) := by
  apply Preserves.get_bind
  intro w h
  refine (Preserves.bind (.set (noted _ rfl rfl w h)) fun _ => ?_) w h
  apply Preserves.ite
  · intro _
    exact .throw _
  intro _
  split
  · exact .pure _
  · rename_i outcome responds
    refine Preserves.bind (.forM fun write member => ?_) fun _ => .pure _
    exact provides w h _ outcome rfl rfl responds write member

/-- Running a program logs what it comes to. -/
theorem preserves_run_of {command : List Text} {directory : Option Path}
    (logged : ∀ level topic message, Preserves I (Action.log level topic message))
    (called : Preserves I (call config command directory)) :
    Preserves I (run config command directory) := by
  refine (logged _ _ _).bind fun _ => called.bind fun answer => ?_
  cases answer with
  | none => exact .throw _
  | some outcome =>
    apply Preserves.ite
    · intro _
      exact .pure _
    · intro _
      extract_lets
      exact .ite (fun _ => (logged _ _ _).bind fun _ => .throw _) fun _ => .throw _

section Stable

variable (stable : Stable w₀ s I)

include stable

/-- The call of a program keeps what the program leaves alone. -/
theorem preserves_call {command : List Text} {directory : Option Path}
    (allows : w₀.Allows s command directory) :
    Preserves I (call config command directory) := by
  refine preserves_call_of (fun c hc hd w h => stable.call c h (allows c hc hd).1) ?_
  intro w h c outcome hc hd responds write member
  rw [(stable.stays h).respond] at responds
  exact preserves_provide stable ((allows c hc hd).2 outcome responds write member)

theorem preserves_run {command : List Text} {directory : Option Path}
    (allows : w₀.Allows s command directory) :
    Preserves I (run config command directory) :=
  preserves_run_of (preserves_log stable) (preserves_call stable allows)

theorem preserves_layout {graph image : Path} (makes : s.Makes w₀.directory image.parent)
    (allows : w₀.Allows s [config.layouter, "-Tpng", "-o", image.text, graph.text] none) :
    Preserves I (layout config graph image) := by
  refine (preserves_provideDirectories stable makes).bind ?_
  intro _
  exact (preserves_run stable allows).bind fun _ => .pure _

end Stable

/-- What the calls of the decompiler for a function do is within the scope, apart from what happens
in the directory of the call, which is new: where the primitives go, and what the program does. -/
structure Staging (w₀ : World) (s : Scope) (I : World → Prop) (config : Config)
    (assemblyName function : Text) : Prop where
  straight : "..".toList ∉ w₀.temporary
  unbroken : '/' ∉ assemblyName
  record : ∀ name, name ≠ "..".toList → ∀ content,
    (s.within (w₀.temporary ++ [name])).Provides w₀.directory (PrimitiveFile.path
      ((⟨.slash, w₀.temporary ++ [name]⟩ : Path).child (graphsName assemblyName)) function)
      (.file content)
  program : ∀ name, name ≠ "..".toList →
    (∃ w, I w ∧ w.tree.get? (w₀.temporary ++ [name]) = none) →
    w₀.Allows (s.within (w₀.temporary ++ [name]))
      [config.decompiler, "-funcs", function, assemblyName]
      (some ⟨.slash, w₀.temporary ++ [name]⟩)

theorem straight_temporary (straight : "..".toList ∉ w₀.temporary) {name : Text}
    (ne : name ≠ "..".toList) : "..".toList ∉ w₀.temporary ++ [name] := by
  rw [List.mem_append, List.mem_singleton, not_or]
  exact ⟨straight, Ne.symm ne⟩

/-- The decompiler works in a directory of its own. -/
theorem preserves_decompile (stable : Stable w₀ s I) {assemblyName function : Text}
    (staging : Staging w₀ s I config assemblyName function) (assembly : Text)
    (prims : List Primitive) :
    Preserves I (decompile config assemblyName assembly function prims) := by
  apply preserves_withDirectory stable
  intro name ne new J stable
  have straight := straight_temporary staging.straight ne
  have written : Preserves J (writeText
      ((⟨.slash, w₀.temporary ++ [name]⟩ : Path).child assemblyName) assembly) := by
    apply preserves_writeBytes_of stable
    intro t t' home written
    rcases place_child_cases straight staging.unbroken w₀.directory with below | up
    · exact .inr below
    · -- the way up ends at a directory, and no file can be written there
      exfalso
      obtain ⟨-, accepts⟩ := accepts_of_write home written
      unfold FileTree.write at written
      cases found : t.resolve w₀.directory
          ((⟨.slash, w₀.temporary ++ [name]⟩ : Path).child assemblyName) with
      | error fault => rw [found] at written; cases written
      | ok b =>
        have here := (resolve_ok home found).1
        rw [up] at found
        have directory := directory_of_walk_up (reached_root t) (walk_of_resolve found)
        rw [here] at directory
        exact accepts.not_directory directory
  refine written.bind ?_
  intro _
  have provides := staging.record name ne (Utf8.encode (Primitive.document prims))
  refine Preserves.bind ((preserves_provideDirectories stable provides.1).bind fun _ =>
    preserves_writeText stable provides.2) ?_
  intro _
  exact preserves_run stable (staging.program name ne new)

theorem staging_everything (straight : "..".toList ∉ w₀.temporary) {assemblyName : Text}
    (unbroken : '/' ∉ assemblyName) (function : Text) :
    Staging w₀ .everything I config assemblyName function where
  straight := straight
  unbroken := unbroken
  record _ _ _ := ⟨fun _ _ => .inl trivial, .inl trivial⟩
  program _ _ _ := allows_everything.mono (fun _ _ => .inl) fun _ _ _ => trivial

/-- The primitives go into a file with an ending of its own, whatever the function is called. -/
theorem provides_record (directories : ∀ b, s.puts b .directory)
    (records : ∀ b content, lastChar b = some 'n' → s.puts b (.file content)) (d : Address) (p : Path)
    (function : Text) (content : Bytes) :
    (s.within d).Provides w₀.directory (PrimitiveFile.path p function) (.file content) :=
  ⟨fun _ _ => .inl (directories _),
    .inl (records _ _ (lastChar_child_append (by decide) (by decide) _ _ _))⟩

/-- What a confined decompiler does is within the scope if directories may be made above that of the
call. -/
theorem allows_confined (confined : w₀.Confined) (straight : "..".toList ∉ w₀.temporary)
    {name : Text} (ne : name ≠ "..".toList) {command : List Text}
    (above : ∀ b, b <+: w₀.temporary → s.puts b .directory)
    (calls : ∀ call, call.command = command →
      call.directory = some ⟨.slash, w₀.temporary ++ [name]⟩ → s.calls call) :
    w₀.Allows (s.within (w₀.temporary ++ [name])) command
      (some ⟨.slash, w₀.temporary ++ [name]⟩) := by
  refine confined.allows (straight_temporary straight ne) ?_ (fun _ _ => .inr) calls
  intro b hb
  rcases List.prefix_concat_iff.1 hb with rfl | hb
  · exact .inr List.prefix_rfl
  · exact .inl (above b hb)

/-- The decompiler keeps a node that the programs spare, unless it is the file of some
primitives. -/
theorem staging_keeps (spares : node = .directory ∨ w₀.Spares a)
    (straight : "..".toList ∉ w₀.temporary) {assemblyName : Text} (unbroken : '/' ∉ assemblyName)
    (other : node = .directory ∨ lastChar a ≠ some 'n') (function : Text) :
    Staging w₀ (.sparing a node) I config assemblyName function where
  straight := straight
  unbroken := unbroken
  record name _ content := by
    refine provides_record (s := .sparing a node) (fun _ => .inr (.inl rfl)) ?_ _ _ function content
    intro b content last
    refine other.imp_right fun other => .inr ?_
    rintro rfl
    exact other last
  program name _ _ := (Spares.allows spares _ _).mono (fun _ _ => .inl) fun _ _ _ => trivial

/-- The decompiler keeps what is neither a directory nor the file of some primitives, if it is
confined. -/
theorem staging_apart (confined : w₀.Confined) (straight : "..".toList ∉ w₀.temporary)
    {assemblyName : Text} (unbroken : '/' ∉ assemblyName) (directories : ∀ b, s.puts b .directory)
    (records : ∀ b content, lastChar b = some 'n' → s.puts b (.file content))
    (calls : ∀ call, s.calls call) (function : Text) :
    Staging w₀ s I config assemblyName function where
  straight := straight
  unbroken := unbroken
  record _ _ content := provides_record directories records _ _ function content
  program _ ne _ := allows_confined confined straight ne (fun b _ => directories b)
    fun call _ _ => calls call

theorem unbroken_graphsName (assemblyName : Text) : '/' ∉ graphsName assemblyName := by
  intro member
  rcases List.mem_append.1 member with stem | ending
  · exact Path.unbroken_splitName (Path.unbroken_name _) stem
  · exact absurd ending (by decide)

theorem length_graphsName (assemblyName : Text) : 2 < (graphsName assemblyName).length := by
  rw [graphsName, List.length_append, show "_graphs".toList.length = 7 from rfl]
  omega

/-- The directory that the primitives are staged in. -/
theorem child_graphsName (names : List Text) (assemblyName : Text) :
    (⟨.slash, names⟩ : Path).child (graphsName assemblyName) =
      ⟨.slash, names ++ [graphsName assemblyName]⟩ :=
  Path.child_name (unbroken_graphsName _) ((length_graphsName _).trans' (by decide)) _

/-- Where the primitives of a function are staged whose name has no slash. -/
theorem path_staged (names : List Text) (assemblyName : Text) {function : Text}
    (plain : '/' ∉ function) :
    PrimitiveFile.path ((⟨.slash, names⟩ : Path).child (graphsName assemblyName)) function =
      ⟨.slash, names ++ [graphsName assemblyName, function ++ ".json"]⟩ := by
  have long : 1 < (function ++ ".json".toList).length := by
    rw [List.length_append, show ".json".toList.length = 5 from rfl]
    omega
  have plain : '/' ∉ function ++ ".json".toList := by
    rw [List.mem_append, not_or]
    exact ⟨plain, by decide⟩
  rw [PrimitiveFile.path, child_graphsName, Path.child_name plain long, List.append_assoc]
  rfl

section Record

variable {names : List Text} (straight : "..".toList ∉ names)

include straight

theorem place_graphsName (start : Address) (assemblyName : Text) :
    place start ⟨.slash, names ++ [graphsName assemblyName]⟩ =
      names ++ [graphsName assemblyName] := by
  refine foldl_down ?_ []
  rw [List.mem_append, not_or]
  exact ⟨straight, by simpa using (ne_up_of_long (length_graphsName assemblyName)).symm⟩

/-- The primitives of a function stay in the directory of the call if the name of the function leads
up once at most. -/
theorem prefix_place_record {function : Text} (inner : Path.Inner 1 (Path.above function))
    (start : Address) (assemblyName : Text) : names <+: place start (PrimitiveFile.path
      ((⟨.slash, names⟩ : Path).child (graphsName assemblyName)) function) := by
  rw [PrimitiveFile.path, child_graphsName, place_child_append (by decide) (by decide)]
  exact (prefix_place_append (place_graphsName straight start assemblyName) inner).trans
    (List.prefix_append _ _)

/-- So do the directories that are made for them. -/
theorem makes_record {function : Text} (inner : Path.Inner 1 (Path.above function))
    {assemblyName : Text} (above : ∀ b, b <+: names → s.puts b .directory)
    (below : ∀ b, names <+: b → s.puts b .directory) :
    s.Makes w₀.directory (PrimitiveFile.path
      ((⟨.slash, names⟩ : Path).child (graphsName assemblyName)) function).parent := by
  rw [PrimitiveFile.path, child_graphsName, Path.parent_child_append (by decide) (by decide)]
  have direct := place_graphsName straight w₀.directory assemblyName
  intro front way
  have root : (((⟨.slash, names ++ [graphsName assemblyName]⟩ : Path) ++ Path.above function)).root =
      .slash := by rw [Path.append_of_relative inner.relative]
  rw [root]
  rcases prefix_place_front direct inner way with before | inside
  · have here : place w₀.directory ⟨.slash, front⟩ = front := by
      refine foldl_down (fun up => ?_) []
      rcases List.mem_append.1 (before.subset up) with up | up
      · exact straight up
      · exact ne_up_of_long (length_graphsName assemblyName) (List.mem_singleton.1 up).symm
    rw [here]
    rcases List.prefix_concat_iff.1 before with rfl | before
    · exact below _ (List.prefix_append _ _)
    · exact above _ before
  · exact below _ inside

end Record

/-- The decompiler does nothing outside its directory if it is confined and the function's name does
not lead out of it. -/
theorem staging_confined (confined : w₀.Confined) (straight : "..".toList ∉ w₀.temporary)
    {assemblyName function : Text} (unbroken : '/' ∉ assemblyName)
    (inner : Path.Inner 1 (Path.above function))
    (above : ∀ b, b <+: w₀.temporary → s.puts b .directory)
    (calls : ∀ call name, call.command = [config.decompiler, "-funcs", function, assemblyName] →
      call.directory = some ⟨.slash, w₀.temporary ++ [name]⟩ →
        (∃ w, I w ∧ w.tree.get? (w₀.temporary ++ [name]) = none) → s.calls call) :
    Staging w₀ s I config assemblyName function := by
  refine ⟨straight, unbroken, ?_, fun name ne new => allows_confined confined straight ne above
    fun call command directory => calls call name command directory new⟩
  intro name ne content
  have straight := straight_temporary straight ne
  refine ⟨makes_record straight inner ?_ fun _ => .inr,
    .inr (prefix_place_record straight inner _ _)⟩
  intro b hb
  rcases List.prefix_concat_iff.1 hb with rfl | hb
  · exact .inr List.prefix_rfl
  · exact .inl (above b hb)

end Toolchain

end FlowReport
