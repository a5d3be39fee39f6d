import FlowReport.Proofs.Confinement
import FlowReport.Session

/-!
# Replacing a report

The old directory of the pages is removed behind every step that the inputs can stop. A run that ends
before leaves it as it was, and once it is removed nothing tells whether it was ever there. The
programs that draw the graphs and recover the primitives are taken to write elsewhere.
-/

namespace FlowReport

open Assembly FileTree FlowReport.Action World

/-- The directory of the pages about an input. -/
def Input.output (path : Text) : Path := companion path "_explore"

/-- The commands that the generation of graphs for an input gives: one draws the graphs, and one
recovers the primitives of each function. -/
inductive Toolchain.Generates (config : Config) (path : Text) : List Text → Prop where
  | extract (force : Bool) : Generates config path
      ([config.extractor] ++ (if force then ["-f".toList] else []) ++ ["-img".toList, path])
  | recover (function : Text) : Generates config path
      [config.recoverer, "-steps", "-img", "-indent", "-o",
        (PrimitiveFile.path (Input.companion path "_graphs") function).text,
        ((Input.companion path "_graphs").child (function ++ ".dot")).text]

namespace World

/-- What the generation of graphs for an input writes stands on paths that do not lead into the
directory of the pages. -/
def GeneratesBeside (w : World) (config : Config) (path : Text) : Prop :=
  ∀ call outcome, Toolchain.Generates config path call.command → call.directory = none →
    w.respond call = some outcome → ∀ write ∈ outcome.writes, ∀ front, front <+: write.1.names →
      ¬ place w.directory (Input.output path) <+: place w.directory ⟨write.1.root, front⟩

/-- The world has the programs of `w₀`, and at and below a place all is as it was there. -/
structure Retains (w₀ : World) (d : Address) (w : World) : Prop where
  directory : w.directory = w₀.directory
  respond : w.respond = w₀.respond
  inside : ∀ a, d <+: a → w.tree.get? a = w₀.tree.get? a

variable {w₀ w : World} {d b : Address} {p : Path} {node : Node}

theorem retains_self (w₀ : World) (d : Address) : Retains w₀ d w₀ := ⟨rfl, rfl, fun _ _ => rfl⟩

theorem Retains.trans {w' : World} (first : Retains w₀ d w) (second : Retains w d w') :
    Retains w₀ d w' where
  directory := second.directory.trans first.directory
  respond := second.respond.trans first.respond
  inside a below := (second.inside a below).trans (first.inside a below)

/-- What is put elsewhere does not touch it. -/
theorem Retains.put (h : Retains w₀ d w) (outside : ¬ d <+: b) (node : Node) :
    Retains w₀ d { w with tree := w.tree.put b node } where
  directory := h.directory
  respond := h.respond
  inside a below := by
    have ne : a ≠ b := by
      rintro rfl
      exact outside below
    rw [get?_put_of_ne ne, h.inside a below]

theorem retains_log (level : Level) (topic : Topic) (message : Text) :
    Preserves (Retains w₀ d) (Action.log level topic message) :=
  fun _ h => ⟨h.directory, h.respond, h.inside⟩

/-- So does what is taken from standard input. -/
theorem Retains.taken (h : Retains w₀ d w) : Retains w₀ d { w with input := [] } :=
  ⟨h.directory, h.respond, h.inside⟩

/-- What steps keep, they keep from where they begin. -/
theorem Retains.of_run {α : Type} {x : Action α} {w' : World} {result : Except Error α}
    (kept : Preserves (Retains w d) x) (ran : perform x w = (result, w')) : Retains w d w' := by
  have last := kept w (retains_self w d)
  rwa [ran] at last

theorem retains_provideDirectories
    (outside : ∀ front, front <+: p.names → ¬ d <+: place w₀.directory ⟨p.root, front⟩) :
    Preserves (Retains w₀ d) (provideDirectories p) := by
  refine preserves_checkNull.bind fun _ => ?_
  apply Preserves.get_bind
  intro w h
  have made : Retains w₀ d
      { w with tree := (w.tree.provideDirectories w₀.directory p).1 } := by
    apply provideDirectories_steps (P := fun t => Retains w₀ d { w with tree := t }) _ h
    intro t t' front h way made
    obtain ⟨rfl, -⟩ := put_of_makeDirectory made
    exact h.put (outside front way) _
  rw [← h.directory] at made
  rcases done : w.tree.provideDirectories w.directory p with ⟨t, stopped⟩
  rw [done] at made
  cases stopped <;> exact made

theorem retains_writeBytes {content : Bytes} (outside : ¬ d <+: place w₀.directory p) :
    Preserves (Retains w₀ d) (writeBytes p content) := by
  refine preserves_checkNull.bind fun _ => ?_
  apply Preserves.get_bind
  intro w h
  cases written : w.tree.write w.directory p content with
  | error fault => exact h
  | ok t =>
    rw [h.directory] at written
    obtain ⟨rfl, -⟩ := put_of_write written
    exact h.put outside _

theorem retains_provide
    (outside : ∀ front, front <+: p.names → ¬ d <+: place w₀.directory ⟨p.root, front⟩) :
    Preserves (Retains w₀ d) (provide p node) := by
  cases node with
  | directory => exact retains_provideDirectories outside
  | file content =>
    refine Preserves.bind ?_ fun _ => retains_writeBytes (outside p.names List.prefix_rfl)
    exact retains_provideDirectories fun front way =>
      outside front (way.trans (List.dropLast_prefix _))

end World

namespace Toolchain

variable {w₀ : World} {config : Config} {path : Text}

/-- The calls of the generation leave the directory of the pages alone. -/
theorem retains_run (beside : w₀.GeneratesBeside config path) {command : List Text}
    (generates : Generates config path command) :
    Preserves (Retains w₀ (place w₀.directory (Input.output path)))
      (run config command none) := by
  refine preserves_run_of retains_log (preserves_call_of ?_ ?_)
  · intro c _ _ w h
    exact ⟨h.directory, h.respond, h.inside⟩
  · intro w h c outcome hc hd responds write member
    rw [h.respond] at responds
    exact retains_provide (beside c outcome (hc ▸ generates) hd responds write member)

end Toolchain

namespace Input

variable {I : World → Prop}

/-- Reading a module logs, and takes what is read from standard input. -/
theorem preserves_readModule
    (logged : ∀ level topic message, Preserves I (Action.log level topic message))
    (taken : ∀ w, I w → I { w with input := [] }) (path : Text) :
    Preserves I (readModule path) := by
  have module : ∀ text name, Preserves I (moduleOf text name) := fun _ _ =>
    (Preserves.ofExcept _).bind fun _ => (logged _ _ _).bind fun _ => .pure _
  have decoded : ∀ bytes, Preserves I (decoded bytes) := by
    intro bytes
    unfold Action.decoded
    split
    · exact .pure _
    · exact .throw _
  refine .ite (fun _ => ?_) fun _ => ?_
  · refine (logged _ _ _).bind fun _ => Preserves.bind ?_ fun _ => module _ _
    apply Preserves.get_bind
    intro w h
    exact (Preserves.set (taken w h)).bind (fun _ => decoded _) w h
  · exact (logged _ _ _).bind fun _ => preserves_readText.bind fun _ => module _ _

theorem preserves_readDebugModule
    (logged : ∀ level topic message, Preserves I (Action.log level topic message))
    (taken : ∀ w, I w → I { w with input := [] }) (path : Text) :
    Preserves I (readDebugModule path) := by
  refine .ite (fun _ => .pure _) fun _ => preserves_isFile.bind fun _ => ?_
  exact .ite (fun _ => (preserves_readModule logged taken _).bind fun _ => .pure _) fun _ => .pure _

end Input

namespace Report

variable {r : Report} {w₀ : World}

/-- The generation of graphs leaves the directory of the pages alone. -/
theorem retains_generate (beside : w₀.GeneratesBeside r.config r.path) (names : List Text)
    (force : Bool) :
    Preserves (World.Retains w₀ (place w₀.directory r.output)) (r.generate names force) := by
  have extract : Preserves (World.Retains w₀ (place w₀.directory r.output))
      (Toolchain.extract r.config r.path force) :=
    (retains_log _ _ _).bind fun _ =>
      (Toolchain.retains_run beside (.extract force)).bind fun _ => .pure _
  have recover : ∀ f, Preserves (World.Retains w₀ (place w₀.directory r.output)) (r.recover f) := by
    intro f
    refine preserves_isFile.bind fun _ => .ite (fun _ => ?_) fun _ => retains_log _ _ _
    exact (retains_log _ _ _).bind fun _ =>
      (Toolchain.retains_run beside (.recover f.name)).bind fun _ => .pure _
  have rest : Preserves (World.Retains w₀ (place w₀.directory r.output)) (do
      Toolchain.extract r.config r.path force
      (← r.selected names).forM r.recover) :=
    extract.bind fun _ => (preserves_selected_of retains_log names).bind fun _ =>
      .forM fun f _ => recover f
  exact .ite (fun _ => (Preserves.throw _).bind fun _ => rest) fun _ => rest

/-- A report about an input has its path and its settings. -/
theorem of_about {path : Text} {m : Module} {style : Option Text} {config : Config} {w w' : World}
    (ran : perform (about path m style config) w = (.ok r, w')) :
    r.path = path ∧ r.config = config := by
  obtain ⟨debug, mid, -, ran⟩ := perform_bind_iff.1 ran
  cases style with
  | none => cases ran
  | some name =>
    obtain ⟨style, last, -, ran⟩ := perform_bind_iff.1 ran
    cases ran
    exact ⟨rfl, rfl⟩

theorem preserves_about {I : World → Prop}
    (logged : ∀ level topic message, Preserves I (Action.log level topic message))
    (taken : ∀ w, I w → I { w with input := [] }) (path : Text) (m : Module)
    (style : Option Text) (config : Config) : Preserves I (about path m style config) := by
  refine (Input.preserves_readDebugModule logged taken path).bind fun _ => ?_
  cases style with
  | none => exact .throw _
  | some name => exact (preserves_resolve_of logged name).bind fun _ => .pure _

end Report

namespace Session

open CommandLine

variable {options : Options} {config : Config} {path : Text} {w w' : World}

/-- The runs about a file that end before the directory of its pages is touched: the module or its
debug module is not read, no function is found, no style is named, or the generation of graphs
fails. -/
inductive EndsEarly (options : Options) (config : Config) (path : Text) (w : World) :
    Except Error Unit → World → Prop where
  | unread {e : Error} {w' : World} (failed : perform (Input.readModule path) w = (.error e, w')) :
      EndsEarly options config path w (.error e) w'
  | empty {m : Module} {w' : World} (read : perform (Input.readModule path) w = (.ok m, w'))
      (none : m.funcs = []) : EndsEarly options config path w (.ok ())
        { w' with log := w'.log ++ [⟨.warning, .commandLine,
          "unable to locate function definitions in " ++ path.quoted⟩] }
  | debug {m : Module} {mid w' : World} {e : Error}
      (read : perform (Input.readModule path) w = (.ok m, mid)) (some : m.funcs ≠ [])
      (failed : perform (Input.readDebugModule path) mid = (.error e, w')) :
      EndsEarly options config path w (.error e) w'
  | style {m : Module} {debug : Option Module} {mid w' : World}
      (read : perform (Input.readModule path) w = (.ok m, mid)) (some : m.funcs ≠ [])
      (readDebug : perform (Input.readDebugModule path) mid = (.ok debug, w'))
      (none : options.style = none) : EndsEarly options config path w (.error .noStyle) w'
  | generation {m : Module} {r : Report} {mid late w' : World} {e : Error}
      (read : perform (Input.readModule path) w = (.ok m, mid)) (some : m.funcs ≠ [])
      (about : perform (Report.about path m options.style config) mid = (.ok r, late))
      (wanted : options.generate = true)
      (failed : perform (r.generate options.functions options.force) late = (.error e, w')) :
      EndsEarly options config path w (.error e) w'

/-- The other runs: a report is ready to be prepared. -/
inductive Prepares (options : Options) (config : Config) (path : Text) (w : World) :
    Report → World → Prop where
  | unchanged {m : Module} {r : Report} {mid w' : World}
      (read : perform (Input.readModule path) w = (.ok m, mid)) (some : m.funcs ≠ [])
      (about : perform (Report.about path m options.style config) mid = (.ok r, w'))
      (unwanted : options.generate = false) : Prepares options config path w r w'
  | generated {m : Module} {r : Report} {mid late w' : World}
      (read : perform (Input.readModule path) w = (.ok m, mid)) (some : m.funcs ≠ [])
      (about : perform (Report.about path m options.style config) mid = (.ok r, late))
      (wanted : options.generate = true)
      (ran : perform (r.generate options.functions options.force) late = (.ok (), w')) :
      Prepares options config path w r w'

/-- What a run comes to behind the module. -/
theorem perform_exploreFile_read {m : Module} {mid : World}
    (read : perform (Input.readModule path) w = (.ok m, mid)) (some : m.funcs ≠ []) :
    perform (exploreFile options config path) w = perform (do
      let r ← Report.about path m options.style config
      if options.generate then r.generate options.functions options.force
      let r ← r.init options.force
      let _ ← r.explore options.functions) mid := by
  have more : m.funcs.isEmpty = false := by simpa using some
  rw [exploreFile, perform_bind_ok read]
  simp only [more, Bool.false_eq_true, if_false]

/-- What a report that is ready is made with. -/
theorem perform_exploreFile_about {m : Module} {r : Report} {mid late : World}
    (read : perform (Input.readModule path) w = (.ok m, mid)) (some : m.funcs ≠ [])
    (about : perform (Report.about path m options.style config) mid = (.ok r, late)) :
    perform (exploreFile options config path) w = perform (do
      if options.generate then r.generate options.functions options.force
      let r ← r.init options.force
      let _ ← r.explore options.functions) late := by
  rw [perform_exploreFile_read read some, perform_bind_ok about]

/-- A run that ends early comes to what stopped it. -/
theorem EndsEarly.perform_eq {result : Except Error Unit}
    (h : EndsEarly options config path w result w') :
    perform (exploreFile options config path) w = (result, w') := by
  cases h with
  | unread failed => exact perform_bind_error failed
  | @empty m mid read none =>
    have isEmpty : m.funcs.isEmpty = true := by simpa using none
    rw [exploreFile, perform_bind_ok read]
    simp only [isEmpty, if_true]
    rfl
  | debug read some failed =>
    rw [perform_exploreFile_read read some]
    exact perform_bind_error (perform_bind_error failed)
  | style read some readDebug none =>
    rw [perform_exploreFile_read read some, none]
    exact perform_bind_error (perform_bind_ok readDebug)
  | generation read some about wanted failed =>
    rw [perform_exploreFile_about read some about]
    simp only [wanted, if_true]
    exact perform_bind_error failed

/-- Any other run prepares its report and writes the pages. -/
theorem Prepares.perform_eq {r : Report} (h : Prepares options config path w r w') :
    r.path = path ∧ perform (exploreFile options config path) w =
      perform (do
        let r ← r.init options.force
        let _ ← r.explore options.functions) w' := by
  cases h with
  | unchanged read some about unwanted =>
    refine ⟨(Report.of_about about).1, ?_⟩
    rw [perform_exploreFile_about read some about]
    simp only [unwanted, Bool.false_eq_true, if_false]
  | generated read some about wanted ran =>
    refine ⟨(Report.of_about about).1, ?_⟩
    rw [perform_exploreFile_about read some about]
    simp only [wanted, if_true]
    exact perform_bind_ok ran

/-- A run ends early or prepares its report. -/
theorem endsEarly_or_prepares (options : Options) (config : Config) (path : Text) (w : World) :
    (∃ result w', EndsEarly options config path w result w') ∨
      ∃ r w', Prepares options config path w r w' := by
  rcases read : perform (Input.readModule path) w with ⟨e | m, mid⟩
  · exact .inl ⟨_, _, .unread read⟩
  by_cases none : m.funcs = []
  · exact .inl ⟨_, _, .empty read none⟩
  rcases about : perform (Report.about path m options.style config) mid with ⟨e | r, late⟩
  · rcases perform_bind_error_iff.1 about with failed | ⟨debug, w', readDebug, failed⟩
    · exact .inl ⟨_, _, .debug read none failed⟩
    cases style : options.style with
    | none => exact .inl ⟨_, _, .style read none readDebug style⟩
    | some name =>
      -- a style that is named is always found
      rw [style] at failed
      rcases perform_bind_error_iff.1 failed with never | ⟨_, _, -, never⟩
      · unfold Style.resolve at never
        split at never <;> cases never
      · cases never
  cases wanted : options.generate with
  | false => exact .inr ⟨_, _, .unchanged read none about wanted⟩
  | true =>
    rcases ran : perform (r.generate options.functions options.force) late with ⟨e | _, w'⟩
    · exact .inl ⟨_, _, .generation read none about wanted ran⟩
    · exact .inr ⟨_, _, .generated read none about wanted ran⟩

section Retains

variable {d : Address}

theorem retains_readModule {m : Except Error Module}
    (ran : perform (Input.readModule path) w = (m, w')) : World.Retains w d w' :=
  .of_run (Input.preserves_readModule retains_log (fun _ => Retains.taken) path) ran

theorem retains_readDebugModule {m : Except Error (Option Module)}
    (ran : perform (Input.readDebugModule path) w = (m, w')) : World.Retains w d w' :=
  .of_run (Input.preserves_readDebugModule retains_log (fun _ => Retains.taken) path) ran

theorem retains_about {m : Module} {r : Except Error Report}
    (ran : perform (Report.about path m options.style config) w = (r, w')) :
    World.Retains w d w' :=
  .of_run (Report.preserves_about retains_log (fun _ => Retains.taken) _ _ _ _) ran

theorem retains_generate {m : Module} {r : Report} {mid late : World} {result : Except Error Unit}
    (beside : w.GeneratesBeside config path)
    (read : perform (Input.readModule path) w = (.ok m, mid))
    (about : perform (Report.about path m options.style config) mid = (.ok r, late))
    (ran : perform (r.generate options.functions options.force) late = (result, w')) :
    World.Retains w (place w.directory (Input.output path)) w' := by
  have start := (retains_readModule read).trans
    (retains_about (d := place w.directory (Input.output path)) about)
  obtain ⟨rfl, rfl⟩ := Report.of_about about
  have := Report.retains_generate beside options.functions options.force late start
  rwa [ran] at this

/-- A run that ends early leaves the directory of the pages as it was. -/
theorem EndsEarly.retains {result : Except Error Unit} (beside : w.GeneratesBeside config path)
    (h : EndsEarly options config path w result w') :
    World.Retains w (place w.directory (Input.output path)) w' := by
  cases h with
  | unread failed => exact retains_readModule failed
  | empty read none =>
    have kept := retains_readModule (d := place w.directory (Input.output path)) read
    exact ⟨kept.directory, kept.respond, kept.inside⟩
  | debug read some failed => exact (retains_readModule read).trans (retains_readDebugModule failed)
  | style read some readDebug none =>
    exact (retains_readModule read).trans (retains_readDebugModule readDebug)
  | generation read some about wanted failed => exact retains_generate beside read about failed

/-- So do all steps before the report is prepared. -/
theorem Prepares.retains {r : Report} (beside : w.GeneratesBeside config path)
    (h : Prepares options config path w r w') :
    World.Retains w (place w.directory (Input.output path)) w' := by
  cases h with
  | unchanged read some about unwanted =>
    exact (retains_readModule read).trans (retains_about about)
  | generated read some about wanted ran => exact retains_generate beside read about ran

end Retains

end Session

namespace FileTree

variable {t : FileTree} {start d : Address} {p : Path}

/-- A way that was there is there without a place, or it is cut off. -/
theorem walk_remove {here a : Address} {names : List Text} (walked : t.walk here names = .ok a)
    (d : Address) :
    (t.remove d).walk here names = .ok a ∨ (t.remove d).walk here names = .error .missing := by
  induction names generalizing here with
  | nil => exact .inl walked
  | cons name names ih =>
    rw [walk] at walked
    split at walked
    · cases walked
    · cases walked
    · rename_i directory
      split at walked
      · cases walked
      · rename_i short
        rw [walk]
        cases there : (t.remove d).get? here with
        | none => exact .inr rfl
        | some node =>
          rw [get?_of_remove there, Option.some.injEq] at directory
          subst directory
          simp only [short, Bool.false_eq_true, if_false]
          exact ih walked

/-- A path that led to a place leads nowhere when the place is gone. -/
theorem look_remove {node : Node} (ne : place start p ≠ [])
    (there : t.look start p = .ok (some node)) :
    (t.remove (place start p)).look start p = .ok none := by
  unfold look at there
  cases found : t.resolve start p with
  | error fault =>
    rw [found] at there
    cases fault <;> cases there
  | ok a =>
    obtain ⟨short, rfl, -⟩ := resolve_eq_ok_iff.1 found
    have gone : (t.remove (place start p)).get? (place start p) = none := by
      rw [get?_remove _ _ _ ne, if_pos (List.isPrefixOf_iff_prefix.2 List.prefix_rfl)]
    unfold resolve at found
    rw [if_neg short] at found
    rw [look, resolve, if_neg short]
    rcases walk_remove found (place start p) with same | cut
    · rw [same]
      exact congrArg Except.ok gone
    · rw [cut]

end FileTree

/-- The world without a place and all that is below it. -/
def World.without (w : World) (a : Address) : World := { w with tree := w.tree.remove a }

namespace Action

variable {α β : Type} {w w' : World} {p : Path}

/-- What comes behind equal runs is equal. -/
theorem perform_bind_congr {x : Action α} (same : perform x w = perform x w') (f : α → Action β) :
    perform (x >>= f) w = perform (x >>= f) w' := by
  rcases ran : perform x w with ⟨e | a, mid⟩
  · rw [perform_bind_error ran, perform_bind_error (same ▸ ran)]
  · rw [perform_bind_ok ran, perform_bind_ok (same ▸ ran)]

/-- A path at which something is leads there. -/
theorem look_of_perform_look {found : Option Node} (h : perform (look p) w = (.ok found, w))
    (there : found ≠ none) : hasNull p = false ∧ w.tree.look w.directory p = .ok found := by
  rw [perform_look] at h
  cases null : hasNull p with
  | true =>
    rw [null, if_pos rfl] at h
    cases h
    exact absurd rfl there
  | false =>
    rw [null, if_neg Bool.false_ne_true] at h
    cases looked : w.tree.look w.directory p with
    | error fault =>
      rw [looked] at h
      cases h
    | ok other =>
      rw [looked] at h
      cases h
      exact ⟨rfl, rfl⟩

theorem resolve_of_look {t : FileTree} {start : Address} {node : Node}
    (looked : t.look start p = .ok (some node)) :
    t.resolve start p = .ok (place start p) ∧ t.get? (place start p) = some node := by
  unfold FileTree.look at looked
  cases found : t.resolve start p with
  | error fault =>
    rw [found] at looked
    cases fault <;> cases looked
  | ok a =>
    obtain ⟨-, rfl, -⟩ := resolve_eq_ok_iff.1 found
    rw [found] at looked
    exact ⟨rfl, Except.ok.inj looked⟩

/-- A directory is removed with all that is in it. -/
theorem perform_removeTree (looked : w.tree.look w.directory p = .ok (some .directory)) :
    perform (removeTree p) w =
      (.ok (), w.without (place w.directory p)) := by
  obtain ⟨found, there⟩ := resolve_of_look looked
  unfold removeTree
  rw [perform_get_bind, found]
  simp only [there]
  rfl

/-- No directory is made where something is. -/
theorem perform_makeDirectory_present {node : Node} (null : hasNull p = false)
    (looked : w.tree.look w.directory p = .ok (some node)) :
    perform (makeDirectory p) w = (.error (.file .present p.text), w) := by
  obtain ⟨found, there⟩ := resolve_of_look looked
  have refused : w.tree.makeDirectory w.directory p = .error .present := by
    simp only [FileTree.makeDirectory, found, bind, Except.bind, there]
  have checked : perform (checkNull p) w = (.ok (), w) := by
    rw [checkNull, null]
    rfl
  rw [makeDirectory, perform_bind_ok checked, perform_get_bind, refused]
  rfl

end Action

namespace Report

variable {w : World}

/-- The directory of the pages is not the root. -/
theorem place_output_ne_root (r : Report) (start : Address) : place start r.output ≠ [] := by
  rw [place_output]
  simp

/-- Where something is at the place of the pages, a report that is not forced is refused. -/
theorem init_refused {r : Report} {node : Node}
    (there : perform (Action.look r.output) w = (.ok (some node), w)) :
    ∃ w', perform (r.init false) w = (.error (.file .present r.output.text), w') ∧
      w'.tree = w.tree := by
  obtain ⟨null, looked⟩ := look_of_perform_look there (Option.some_ne_none node)
  refine ⟨{ w with log := w.log ++ [⟨.info, .report, "creating " ++ r.output.text.quoted⟩] }, ?_, rfl⟩
  refine perform_bind_error (perform_bind_ok (perform_log _ _ _ _) |>.trans ?_)
  exact perform_bind_error (perform_makeDirectory_present null looked)

/-- Where the old directory is gone, nothing is seen of it. -/
theorem perform_look_without {r : Report}
    (there : perform (Action.look r.output) w = (.ok (some .directory), w)) :
    perform (Action.look r.output) (w.without (place w.directory r.output)) =
      (.ok none, w.without (place w.directory r.output)) := by
  obtain ⟨null, looked⟩ := look_of_perform_look there (Option.some_ne_none _)
  have gone : (w.without (place w.directory r.output)).tree.look
      (w.without (place w.directory r.output)).directory r.output = .ok none :=
    look_remove (place_output_ne_root r _) looked
  rw [perform_look, null, if_neg Bool.false_ne_true, gone]
  rfl

/-- An old directory of the pages, whatever is in it, is replaced as if it had not been there. -/
theorem init_replaces {r : Report}
    (there : perform (Action.look r.output) w = (.ok (some .directory), w)) :
    perform (r.init true) w = perform (r.init true) (w.without (place w.directory r.output)) := by
  obtain ⟨null, looked⟩ := look_of_perform_look there (Option.some_ne_none _)
  have present : perform (Action.isThere r.output) w = (.ok true, w) := perform_bind_ok there
  have absent : perform (Action.isThere r.output) (w.without (place w.directory r.output)) =
      (.ok false, w.without (place w.directory r.output)) :=
    perform_bind_ok (perform_look_without there)
  refine perform_bind_congr ?_ _
  unfold makeOutput
  simp only [if_true]
  rw [perform_bind_ok present, perform_bind_ok absent]
  simp only [if_true, Bool.false_eq_true, if_false]
  rw [perform_bind_ok (perform_removeTree looked)]

end Report

namespace Session

open CommandLine

/-- **An old report is replaced as a whole.** A run that ends before its report is prepared, for an
input that is not read, for want of a function or by a failing generation, leaves the directory of the
pages as it was, and so do the steps before the preparation in any other run. The preparation is
refused where something is, unless it is forced; then nothing of an old directory is left, and neither
it nor the pages depend on what was in that directory. -/
theorem old_report_replaced_whole {options : Options} {config : Config} {path : Text} {w : World}
    (beside : w.GeneratesBeside config path) :
    (∀ result w', EndsEarly options config path w result w' →
      perform (exploreFile options config path) w = (result, w') ∧
      ∀ a, place w.directory (Input.output path) <+: a → w'.tree.get? a = w.tree.get? a) ∧
    (∀ r w', Prepares options config path w r w' → r.output = Input.output path ∧
      perform (exploreFile options config path) w = perform (do
        let r ← r.init options.force
        let _ ← r.explore options.functions) w' ∧
      ∀ a, place w.directory (Input.output path) <+: a → w'.tree.get? a = w.tree.get? a) ∧
    ((∃ result w', EndsEarly options config path w result w') ∨
      ∃ r w', Prepares options config path w r w') ∧
    (∀ (r : Report) v node, perform (Action.look r.output) v = (.ok (some node), v) →
      ∃ v', perform (r.init false) v = (.error (.file .present r.output.text), v') ∧
        v'.tree = v.tree) ∧
    (∀ (r : Report) v, perform (Action.look r.output) v = (.ok (some .directory), v) →
      perform (Action.look r.output) (v.without (place v.directory r.output)) =
        (.ok none, v.without (place v.directory r.output)) ∧
      perform (r.init true) v = perform (r.init true) (v.without (place v.directory r.output))) ∧
    (∀ (r : Report) v v' names, perform (Action.look r.output) v = (.ok (some .directory), v) →
      perform (Action.look r.output) v' = (.ok (some .directory), v') →
      v.without (place v.directory r.output) = v'.without (place v.directory r.output) →
      perform (do let r ← r.init true; r.explore names) v =
        perform (do let r ← r.init true; r.explore names) v') := by
  refine ⟨fun result w' h => ⟨h.perform_eq, (h.retains beside).inside⟩, ?_,
    endsEarly_or_prepares options config path w, fun r v node there => Report.init_refused there,
    fun r v there => ⟨Report.perform_look_without there, Report.init_replaces there⟩, ?_⟩
  · intro r w' h
    obtain ⟨same, ran⟩ := h.perform_eq
    exact ⟨congrArg Input.output same, ran, (h.retains beside).inside⟩
  · intro r v v' names there there' same
    have home : (v.without (place v.directory r.output)).directory =
        (v'.without (place v.directory r.output)).directory := congrArg World.directory same
    change v.directory = v'.directory at home
    refine perform_bind_congr ?_ _
    rw [Report.init_replaces there, Report.init_replaces there', same, home]

/-- A module with one function. -/
def staleText : Text := "define void @f() \x7b\n  ret void\n\x7d\n"

/-- An old page, and programs that fail behind a directory that they made. -/
def staleWorld : World where
  tree := ⟨[(["r.ll"], .file (Utf8.encode staleText)), (["r_explore"], .directory),
    (["r_explore", "f_0001.html"], .file (Utf8.encode "old"))]⟩
  respond _ := some { writes := [(⟨.relative, ["r_graphs"]⟩, .directory)], status := 1 }

theorem generatesBeside_staleWorld : staleWorld.GeneratesBeside {} "r.ll" := by
  intro call outcome _ _ responds write member front way
  cases responds
  rw [List.mem_singleton.1 member] at way ⊢
  have both : ∀ front ∈ List.inits ["r_graphs".toList],
      ¬ place [] (Input.output "r.ll") <+: place [] ⟨.relative, front⟩ := by
    decide +kernel
  exact both front ((List.mem_inits _ _).2 way)

/-- A command to generate the graphs and to overwrite what is there. -/
def staleOptions : Options where
  force := true
  generate := true
  logLevel := none

/-- The generation fails, and the old page is kept although it was to be overwritten. -/
theorem old_report_replaced_whole_stale :
    ∃ e w', perform (exploreFile staleOptions {} "r.ll") staleWorld = (.error e, w') ∧
      w'.tree.get? ["r_explore", "f_0001.html"] = some (.file (Utf8.encode "old")) := by
  obtain ⟨m, -, read, some, styled, stopped⟩ : ∃ m, Module.ofText staleText "r.ll" = .ok m ∧
      (perform (Input.readModule "r.ll") staleWorld).1.toOption = some m ∧ m.funcs ≠ [] ∧
      (perform (Report.about "r.ll" m staleOptions.style {})
        (perform (Input.readModule "r.ll") staleWorld).2).1.toOption.isSome = true ∧
      (perform (do
        let r ← Report.about "r.ll" m staleOptions.style {}
        r.generate staleOptions.functions staleOptions.force)
        (perform (Input.readModule "r.ll") staleWorld).2).1.toOption = none :=
    ⟨_, by cbv, by decide +kernel, by decide +kernel, by decide +kernel, by decide +kernel⟩
  obtain ⟨r, styled⟩ := Option.isSome_iff_exists.1 styled
  have about := perform_eq_ok styled
  rw [perform_bind_ok about] at stopped
  rcases failed : perform (r.generate staleOptions.functions staleOptions.force) _ with ⟨e | _, w'⟩
  · obtain ⟨ran, kept⟩ := (@old_report_replaced_whole staleOptions {} "r.ll" staleWorld
      generatesBeside_staleWorld).1 _ _ (.generation (perform_eq_ok read) some about rfl failed)
    have output : place staleWorld.directory (Input.output "r.ll") <+:
        ["r_explore".toList, "f_0001.html".toList] := by
      decide +kernel
    exact ⟨e, w', ran, kept _ output⟩
  · rw [failed] at stopped
    cases stopped

end Session

end FlowReport
