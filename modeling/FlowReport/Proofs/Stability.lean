import FlowReport.Proofs.Numerals
import FlowReport.Proofs.PathNames
import FlowReport.Proofs.Runs
import FlowReport.Proofs.Trees
import Mathlib.Data.List.Nodup
import Mathlib.Data.List.Perm.Subperm

/-!
# What actions leave alone

A property of worlds is `Stable` within a scope if logging, the calls and the changes of the tree
that the scope allows keep it. Every action keeps a stable property whose scope allows what the
action does, so each action has one law, and what it leaves alone is read off by choosing the
property: `Keeps` for a node, `Leaves` for the file at an address, there or not, `Still` for the
whole tree. A temporary directory goes without a trace, since it is made where nothing was.
-/

namespace FlowReport

open FileTree

namespace World

/-- The world has the directories and the programs of `w₀`, its working directory is there, and the
tree holds a node. -/
structure Keeps (w₀ : World) (a : Address) (node : Node) (w : World) : Prop where
  directory : w.directory = w₀.directory
  temporary : w.temporary = w₀.temporary
  respond : w.respond = w₀.respond
  home : w.tree.Holds w₀.directory .directory
  kept : w.tree.Holds a node

/-- The world has the directories and the programs of `w₀`, and its working directory is there. -/
abbrev Stays (w₀ : World) : World → Prop := Keeps w₀ w₀.directory .directory

variable {w₀ w : World} {a d : Address} {node : Node}

theorem Keeps.stays (h : Keeps w₀ a node w) : Stays w₀ w := { h with kept := h.home }

theorem Keeps.trans {w' : World} (first : Stays w₀ w) (second : Stays w w') : Stays w₀ w' where
  directory := second.directory.trans first.directory
  temporary := second.temporary.trans first.temporary
  respond := second.respond.trans first.respond
  home := first.directory ▸ second.home
  kept := first.directory ▸ second.home

/-- A changed tree that holds what the old one held. -/
theorem Keeps.with_tree (h : Keeps w₀ a node w) {t : FileTree}
    (home : t.Holds w₀.directory .directory) (kept : t.Holds a node) :
    Keeps w₀ a node { w with tree := t } where
  directory := h.directory
  temporary := h.temporary
  respond := h.respond
  home := home
  kept := kept

/-- What steps may do: the nodes that they may put into the tree, and the calls that they may
make. -/
structure Scope where
  puts : Address → Node → Prop
  calls : Call → Prop := fun _ => True

namespace Scope

/-- All that the scope allows, and whatever happens at or below an address. -/
def within (s : Scope) (d : Address) : Scope :=
  { s with puts := fun a node => s.puts a node ∨ d <+: a }

/-- Everything. -/
def everything : Scope := ⟨fun _ _ => True, fun _ => True⟩

/-- All but a file in the place of a node that is a file. -/
def sparing (a : Address) (node : Node) : Scope :=
  ⟨fun b new => node = .directory ∨ new = .directory ∨ b ≠ a, fun _ => True⟩

/-- All but a file at some addresses. Nothing takes the place of the temporary directory anyway. -/
def avoiding (w₀ : World) (A : Address → Prop) : Scope :=
  ⟨fun b new => ¬ A b ∨ new = .directory ∨ b <+: w₀.temporary, fun _ => True⟩

/-- What both scopes allow. -/
def both (s s' : Scope) : Scope where
  puts a node := s.puts a node ∧ s'.puts a node
  calls c := s.calls c ∧ s'.calls c

/-- The directories on the way to a path may be made, the last one too. -/
def Makes (s : Scope) (start : Address) (p : Path) : Prop :=
  ∀ front, front <+: p.names → s.puts (place start ⟨p.root, front⟩) .directory

/-- A node may be made, with the directories above it. -/
def Provides (s : Scope) (start : Address) (p : Path) : Node → Prop
  | .directory => s.Makes start p
  | .file content => s.Makes start p.parent ∧ s.puts (place start p) (.file content)

end Scope

/-- What a property of worlds has to go through in order to hold behind every action that stays
within the scope. The last condition is about what is removed where there was nothing before. -/
structure Stable (w₀ : World) (s : Scope) (I : World → Prop) : Prop where
  stays : ∀ {w}, I w → Stays w₀ w
  log : ∀ {w} lines, I w → I { w with log := lines }
  call : ∀ {w} c, I w → s.calls c → I { w with calls := w.calls ++ [c] }
  put : ∀ {w a node}, I w → s.puts a node → w.tree.Accepts a node →
    I { w with tree := w.tree.put a node }
  clear : ∀ {w a}, I w → w.tree.get? a = none → I { w with tree := w.tree.remove a }

namespace Stable

variable {s s' : Scope} {I J : World → Prop}

theorem and (left : Stable w₀ s I) (right : Stable w₀ s' J) :
    Stable w₀ (s.both s') fun w => I w ∧ J w where
  stays h := left.stays h.1
  log lines h := ⟨left.log lines h.1, right.log lines h.2⟩
  call c h allowed := ⟨left.call c h.1 allowed.1, right.call c h.2 allowed.2⟩
  put h allowed accepts := ⟨left.put h.1 allowed.1 accepts, right.put h.2 allowed.2 accepts⟩
  clear h free := ⟨left.clear h.1 free, right.clear h.2 free⟩

/-- What is stable since a later world is stable since the first one. -/
theorem since {w : World} (stable : Stable w s I) (stays : Stays w₀ w) : Stable w₀ s I :=
  { stable with stays := fun h => stays.trans (stable.stays h) }

/-- Where a directory is there, nothing can be put above it, so there is nothing to forbid. -/
theorem allow_above (stable : Stable w₀ s I) (there : ∀ {w}, I w → w.tree.Holds d .directory) :
    Stable w₀ { s with puts := fun a node => s.puts a node ∨ a <+: d } I where
  stays := stable.stays
  log := stable.log
  call := stable.call
  put h allowed accepts := by
    rcases allowed with allowed | above
    · exact stable.put h allowed accepts
    · exact absurd ((there h).get?_above above) accepts.not_directory
  clear := stable.clear

/-- What is kept while a directory is away is kept whatever happens at and below the directory. -/
theorem within (stable : Stable w₀ s I) (d : Address) :
    Stable w₀ (s.within d) fun w => I { w with tree := w.tree.remove d } where
  stays h := by
    have stays := stable.stays h
    exact ⟨stays.directory, stays.temporary, stays.respond, stays.home.of_remove,
      stays.home.of_remove⟩
  log lines h := stable.log lines h
  call c h allowed := stable.call c h allowed
  put {w a node} h allowed accepts := by
    show I { w with tree := (w.tree.put a node).remove d }
    by_cases below : d <+: a
    · rw [remove_put_below below]
      exact h
    · rw [remove_put_aside below]
      exact stable.put h (allowed.resolve_right below) (accepts.remove below)
  clear {w a} h free := by
    show I { w with tree := (w.tree.remove a).remove d }
    rw [remove_remove]
    exact stable.clear h (remove_free free)

end Stable

theorem stable_keeps (w₀ : World) (a : Address) (node : Node) :
    Stable w₀ (.sparing a node) (Keeps w₀ a node) where
  stays h := h.stays
  log _ h := { h with }
  call _ h _ := { h with }
  put h other accepts :=
    h.with_tree (h.home.put accepts (.inl rfl)) (h.kept.put accepts other)
  clear h free :=
    h.with_tree (h.home.remove (h.home.not_above_of_free free))
      (h.kept.remove (h.kept.not_above_of_free free))

theorem stable_stays (w₀ : World) : Stable w₀ .everything (Stays w₀) :=
  { stable_keeps w₀ w₀.directory .directory with
    put := fun h _ => (stable_keeps w₀ w₀.directory .directory).put h (.inl rfl) }

/-- A world that programs can be called in: no place is in use below anything but directories, and
the temporary directory is there, written without a double dot. -/
structure Settled (w : World) : Prop where
  closed : w.tree.Closed
  home : w.tree.get? w.directory = some .directory
  temporary : w.tree.get? w.temporary = some .directory
  straight : "..".toList ∉ w.temporary

theorem Settled.stays (h : Settled w) : Stays w w :=
  ⟨rfl, rfl, rfl, h.closed.holds h.home, h.closed.holds h.home⟩

/-- The world has the directories and programs of `w₀`, and its tree is closed and holds the
temporary directory. -/
structure Rests (w₀ w : World) : Prop where
  stays : Stays w₀ w
  closed : w.tree.Closed
  temporary : w.tree.Holds w₀.temporary .directory

theorem Settled.rests (h : Settled w) : Rests w w :=
  ⟨h.stays, h.closed, h.closed.holds h.temporary⟩

theorem Rests.with_tree (h : Rests w₀ w) {t : FileTree} (closed : t.Closed)
    (home : t.Holds w₀.directory .directory) (temporary : t.Holds w₀.temporary .directory) :
    Rests w₀ { w with tree := t } :=
  ⟨h.stays.with_tree home home, closed, temporary⟩

theorem Rests.settled (h : Rests w₀ w) (straight : "..".toList ∉ w₀.temporary) : Settled w where
  closed := h.closed
  home := h.stays.directory ▸ h.stays.home.node
  temporary := h.stays.temporary ▸ h.temporary.node
  straight := h.stays.temporary ▸ straight

theorem stable_rests (w₀ : World) : Stable w₀ .everything (Rests w₀) where
  stays h := h.stays
  log _ h := ⟨{ h.stays with }, h.closed, h.temporary⟩
  call _ h _ := ⟨{ h.stays with }, h.closed, h.temporary⟩
  put h _ accepts :=
    h.with_tree (h.closed.put accepts) (h.stays.home.put accepts (.inl rfl))
      (h.temporary.put accepts (.inl rfl))
  clear {w a} h free := by
    rw [h.closed.remove_free free]
    exact h

/-- The files at some addresses are those that were there, if any. -/
structure Leaves (w₀ : World) (A : Address → Prop) (w : World) : Prop where
  rests : Rests w₀ w
  left : ∀ a, A a → w.tree.fileAt? a = w₀.tree.fileAt? a

theorem stable_leaves (w₀ : World) (A : Address → Prop) :
    Stable w₀ (.avoiding w₀ A) (Leaves w₀ A) where
  stays h := h.rests.stays
  log lines h := ⟨(stable_rests w₀).log lines h.rests, h.left⟩
  call c h _ := ⟨(stable_rests w₀).call c h.rests trivial, h.left⟩
  put {w b node} h allowed accepts := by
    refine ⟨(stable_rests w₀).put h.rests trivial accepts, ?_⟩
    intro a ha
    show (w.tree.put b node).fileAt? a = _
    rw [← h.left a ha]
    by_cases same : a = b
    · subst same
      rcases allowed with other | rfl | above
      · exact absurd ha other
      · -- a directory takes a free place only
        have free := accepts.room.resolve_right (by rintro ⟨_, _, _, file⟩; cases file)
        rw [fileAt?, fileAt?, get?_put_self accepts, free]
      · exact absurd (h.rests.temporary.get?_above above) accepts.not_directory
    · rw [fileAt?, fileAt?, get?_put_of_ne same]
  clear {w b} h free := by
    rw [h.rests.closed.remove_free free]
    exact h

/-- The tree is the one that was there. -/
structure Still (w₀ : World) (t : FileTree) (w : World) : Prop where
  rests : Rests w₀ w
  same : w.tree = t

theorem stable_still (w₀ : World) (t : FileTree) :
    Stable w₀ ⟨fun b _ => b <+: w₀.temporary, fun _ => True⟩ (Still w₀ t) := by
  have nothing : Stable w₀ ⟨fun _ _ => False, fun _ => True⟩ (Still w₀ t) :=
    { stays := fun h => h.rests.stays
      log := fun lines h => ⟨(stable_rests w₀).log lines h.rests, h.same⟩
      call := fun c h _ => ⟨(stable_rests w₀).call c h.rests trivial, h.same⟩
      put := fun _ never => never.elim
      clear := by
        intro w a h free
        rw [h.rests.closed.remove_free free]
        exact h }
  simpa only [false_or] using nothing.allow_above fun h => h.rests.temporary

end World

/-- A path leads to a file. -/
def World.HasFile (w : World) (p : Path) : Prop :=
  Action.hasNull p = false ∧ ∃ content, w.tree.look w.directory p = .ok (some (.file content))

namespace Action

open World

variable {α : Type} {I : World → Prop} {w₀ : World} {s : Scope} {p : Path} {content : Bytes}

theorem preserves_look : Preserves I (look p) := by
  apply Preserves.ite
  · intro _
    exact .pure _
  · intro _
    apply Preserves.get_bind
    intro w h
    split <;> exact h

theorem preserves_isFile : Preserves I (isFile p) := by
  refine preserves_look.bind ?_
  intro found
  split <;> exact .pure _

/-- What looking along a path comes to. -/
theorem perform_look (p : Path) (w : World) :
    perform (look p) w = (if hasNull p then .ok none else
      (w.tree.look w.directory p).mapError fun fault => .file fault p.text, w) := by
  unfold look
  by_cases null : hasNull p = true
  · rw [if_pos null, if_pos null]
    rfl
  · rw [if_neg null, if_neg null]
    rw [perform_get_bind]
    cases w.tree.look w.directory p <;> rfl

/-- Looking for a file changes nothing, and the answer is right. -/
theorem perform_isFile (p : Path) (w : World) :
    (perform (isFile p) w).2 = w ∧
      ∀ found, (perform (isFile p) w).1 = .ok found → (found = true ↔ w.HasFile p) := by
  have looked := perform_look p w
  unfold isFile World.HasFile
  cases null : hasNull p with
  | true =>
    rw [null, if_pos rfl] at looked
    rw [perform_bind_ok looked]
    exact ⟨rfl, by rintro found ⟨⟩; simp⟩
  | false =>
    rw [null, if_neg Bool.false_ne_true] at looked
    cases there : w.tree.look w.directory p with
    | error fault =>
      rw [there] at looked
      rw [perform_bind_error looked]
      exact ⟨rfl, nofun⟩
    | ok node =>
      rw [there] at looked
      rw [perform_bind_ok looked]
      rcases node with _ | _ | content <;> exact ⟨rfl, by rintro found ⟨⟩; simp⟩

theorem ensures_isFile : Ensures I (isFile p) fun found w => (found = true ↔ w.HasFile p) ∧ I w := by
  intro w found w' h ran
  obtain ⟨same, right⟩ := perform_isFile p w
  rw [ran] at same right
  obtain rfl : w' = w := same
  exact ⟨right found rfl, h⟩

/-- What is done about a file depends on whether it is there. -/
theorem preserves_isFile_bind {f : Bool → Action α}
    (yes : (∃ w, I w ∧ w.HasFile p) → Preserves I (f true)) (no : Preserves I (f false)) :
    Preserves I (isFile p >>= f) := by
  intro w h
  obtain ⟨same, right⟩ := perform_isFile p w
  rcases ran : perform (isFile p) w with ⟨e | found, w'⟩
  · rw [perform_bind_error ran]
    rw [ran] at same
    exact same ▸ h
  · rw [perform_bind_ok ran]
    rw [ran] at same right
    have same : w' = w := same
    subst w'
    cases found with
    | true => exact yes ⟨w, h, (right _ rfl).1 rfl⟩ w h
    | false => exact no w h

theorem preserves_checkNull : Preserves I (checkNull p) :=
  .ite (fun _ => .throw _) fun _ => .pure _

theorem preserves_readBytes : Preserves I (readBytes p) := by
  refine preserves_checkNull.bind ?_
  intro _
  apply Preserves.get_bind
  intro w h
  split <;> exact h

/-- What reading a file comes to. -/
theorem perform_readBytes (p : Path) (w : World) :
    perform (readBytes p) w = (if hasNull p then .error .nullInPath else
      (w.tree.read w.directory p).mapError fun fault => .file fault p.text, w) := by
  unfold readBytes checkNull
  by_cases null : hasNull p = true
  · rw [if_pos null, if_pos null]
    rfl
  · rw [if_neg null, if_neg null]
    rw [perform_bind_ok (show perform (pure () : Action Unit) w = (.ok (), w) from rfl),
      perform_get_bind]
    cases w.tree.read w.directory p <;> rfl

theorem perform_readBytes_iff {w w' : World} : perform (readBytes p) w = (.ok content, w') ↔
    hasNull p = false ∧ w.tree.read w.directory p = .ok content ∧ w' = w := by
  rw [perform_readBytes, Prod.mk.injEq, eq_comm (a := w)]
  cases hasNull p with
  | true => simp
  | false => cases w.tree.read w.directory p <;> simp [Except.mapError]

theorem preserves_readText : Preserves I (readText p) := by
  refine preserves_readBytes.bind ?_
  intro bytes
  unfold decoded
  split
  · exact .pure _
  · exact .throw _

theorem preserves_readLenient : Preserves I (readLenient p) :=
  preserves_readBytes.bind fun _ => .pure _

section Stable

variable (stable : Stable w₀ s I)

include stable

theorem preserves_log (level : Level) (topic : Topic) (message : Text) :
    Preserves I (log level topic message) :=
  fun _ h => stable.log _ h

/-- A file may be written if it is in the scope whenever it can be written at all. -/
theorem preserves_writeBytes_of
    (puts : ∀ {t t' : FileTree}, t.Reached w₀.directory →
      t.write w₀.directory p content = .ok t' → s.puts (place w₀.directory p) (.file content)) :
    Preserves I (writeBytes p content) := by
  refine preserves_checkNull.bind ?_
  intro _
  apply Preserves.get_bind
  intro w h
  have stays := stable.stays h
  cases written : w.tree.write w.directory p content with
  | error fault => exact h
  | ok t =>
    rw [stays.directory] at written
    obtain ⟨rfl, accepts⟩ := accepts_of_write stays.home.reached written
    exact stable.put h (puts stays.home.reached written) accepts

theorem preserves_writeBytes (puts : s.puts (place w₀.directory p) (.file content)) :
    Preserves I (writeBytes p content) :=
  preserves_writeBytes_of stable fun _ _ => puts

theorem preserves_writeText {text : Text}
    (puts : s.puts (place w₀.directory p) (.file (Utf8.encode text))) :
    Preserves I (writeText p text) := preserves_writeBytes stable puts

theorem preserves_writeWide {text : WideText}
    (puts : ∀ content, s.puts (place w₀.directory p) (.file content)) :
    Preserves I (writeWide p text) := by
  unfold writeWide
  split
  · exact preserves_writeBytes stable (puts _)
  · exact (preserves_writeBytes stable (puts _)).bind fun _ => .throw _

theorem preserves_copyFile {source : Path}
    (puts : ∀ content, s.puts (place w₀.directory p) (.file content)) :
    Preserves I (copyFile source p) :=
  preserves_readBytes.bind fun _ => preserves_writeBytes stable (puts _)

theorem preserves_provideDirectories (makes : s.Makes w₀.directory p) :
    Preserves I (provideDirectories p) := by
  refine preserves_checkNull.bind ?_
  intro _
  apply Preserves.get_bind
  intro w h
  have made : I { w with tree := (w.tree.provideDirectories w₀.directory p).1 } := by
    apply provideDirectories_induction (P := fun t => I { w with tree := t }) _ _ h
    · intro t h
      exact (stable.stays h).home.reached
    · intro t front h above accepts
      exact stable.put h (makes front above) accepts
  rw [← (stable.stays h).directory] at made
  rcases done : w.tree.provideDirectories w.directory p with ⟨t, stopped⟩
  rw [done] at made
  cases stopped <;> exact made

theorem preserves_provide {node : Node} (provides : s.Provides w₀.directory p node) :
    Preserves I (provide p node) := by
  cases node with
  | directory => exact preserves_provideDirectories stable provides
  | file content =>
    refine (preserves_provideDirectories stable provides.1).bind ?_
    intro _
    exact preserves_writeBytes stable provides.2

end Stable

theorem perform_checkNull_ok {w w' : World} {u : Unit} (ran : perform (checkNull p) w = (.ok u, w')) :
    w' = w := by
  unfold checkNull at ran
  split at ran <;> cases ran
  rfl

/-- A file that is written takes over the tree with the file. -/
theorem perform_writeBytes {w w' : World} {u : Unit}
    (ran : perform (writeBytes p content) w = (.ok u, w')) :
    ∃ t, w.tree.write w.directory p content = .ok t ∧ w' = { w with tree := t } := by
  obtain ⟨_, mid, checked, put⟩ := perform_bind_iff.1 ran
  obtain rfl : w = mid := (perform_checkNull_ok checked).symm
  change perform (commit p (w.tree.write w.directory p content)) w = _ at put
  cases written : w.tree.write w.directory p content with
  | error fault =>
    rw [written] at put
    cases put
  | ok t =>
    rw [written] at put
    cases put
    exact ⟨t, rfl, rfl⟩

/-- A file that is written is put where its path leads. -/
theorem perform_writeBytes_ok {w w' : World} {u : Unit} (home : w.tree.Reached w.directory)
    (ran : perform (writeBytes p content) w = (.ok u, w')) :
    w' = { w with tree := w.tree.put (place w.directory p) (.file content) } ∧
      w.tree.Accepts (place w.directory p) (.file content) := by
  obtain ⟨t, written, rfl⟩ := perform_writeBytes ran
  obtain ⟨rfl, accepts⟩ := accepts_of_write home written
  exact ⟨rfl, accepts⟩

/-- A file that was written is there. -/
theorem ensures_writeBytes : Ensures (Stays w₀) (writeBytes p content)
    fun _ => Keeps w₀ (place w₀.directory p) (.file content) := by
  intro w _ w' h ran
  obtain ⟨rfl, accepts⟩ := perform_writeBytes_ok (h.directory ▸ h.home.reached) ran
  rw [h.directory] at accepts ⊢
  exact ⟨rfl, h.temporary, h.respond, h.home.put accepts (.inl rfl), holds_put accepts⟩

/-- What writing a file makes of the tree. -/
theorem ensures_writeBytes_tree {w : World} {t : FileTree} (still : Still w₀ t w) :
    Ensures (· = w) (writeBytes p content) fun _ w' =>
      t.Accepts (place w₀.directory p) (.file content) ∧
        Still w₀ (t.put (place w₀.directory p) (.file content)) w' ∧ w'.calls = w.calls := by
  obtain ⟨rests, rfl⟩ := still
  intro w₁ _ w' same ran
  obtain rfl : w = w₁ := same.symm
  have home := rests.stays.directory
  obtain ⟨rfl, accepts⟩ := perform_writeBytes_ok (home ▸ rests.stays.home.reached) ran
  rw [home] at accepts ⊢
  have put := (stable_rests w₀).put rests trivial accepts
  rw [home] at put
  exact ⟨accepts, ⟨put, rfl⟩, rfl⟩

/-- What making directories makes of the tree. -/
theorem ensures_provideDirectories_tree {w : World} {t : FileTree} (still : Still w₀ t w) :
    Ensures (· = w) (provideDirectories p) fun _ w' =>
      Still w₀ (t.provideDirectories w₀.directory p).1 w' ∧ w'.calls = w.calls := by
  obtain ⟨rests, rfl⟩ := still
  intro w₁ _ w' same ran
  obtain rfl : w = w₁ := same.symm
  have kept := Ensures.of_preserves (preserves_provideDirectories (stable_rests w₀)
    fun _ _ => trivial) _ _ _ rests ran
  obtain ⟨_, mid, checked, made⟩ := perform_bind_iff.1 ran
  obtain rfl : w = mid := (perform_checkNull_ok checked).symm
  obtain ⟨_, _, known, made⟩ := perform_bind_iff.1 made
  cases known
  rw [← rests.stays.directory]
  rcases done : w.tree.provideDirectories w.directory p with ⟨t, stopped⟩
  rw [done] at made
  obtain ⟨_, _, put, stop⟩ := perform_bind_iff.1 made
  cases put
  cases stopped <;> cases stop
  exact ⟨⟨kept, rfl⟩, rfl⟩

/-- A wide text that was written is there. -/
theorem ensures_writeWide {text : WideText} : Ensures (Stays w₀) (writeWide p text) fun _ w =>
    ∃ bytes, Utf8.encodeWide text = .ok bytes ∧
      Keeps w₀ (place w₀.directory p) (.file bytes) w := by
  unfold writeWide
  split
  · rename_i bytes encoded
    intro w u w' h ran
    exact ⟨bytes, encoded, ensures_writeBytes w u w' h ran⟩
  · refine Ensures.bind (.of_preserves (preserves_writeBytes (stable_stays w₀) trivial)) ?_
    intro _
    exact .throw _

/-- There are more names for a temporary directory than places in use. -/
theorem freshName_free (w : World) : w.tree.get? (w.temporary ++ [freshName w]) = none := by
  unfold freshName
  extract_lets name
  split
  · rename_i k found
    exact Option.isNone_iff_eq_none.1 (by simpa using List.find?_some found)
  · rename_i taken
    exfalso
    have used : (List.range (w.tree.entries.length + 1)).map (fun k => w.temporary ++ [name k]) ⊆
        w.tree.entries.map (·.1) := by
      intro b hb
      obtain ⟨k, hk, rfl⟩ := List.mem_map.1 hb
      have some := List.find?_eq_none.1 taken k hk
      cases held : w.tree.get? (w.temporary ++ [name k]) with
      | none => exact absurd (by simpa [name] using held) some
      | some node =>
        rw [FileTree.get?, if_neg (by simp)] at held
        exact List.mem_map_of_mem (mem_of_find? held)
    have distinct : ((List.range (w.tree.entries.length + 1)).map
        fun k => w.temporary ++ [name k]).Nodup := by
      apply List.Nodup.map _ List.nodup_range
      intro m n same
      have names : name m = name n := (List.cons.inj (List.append_cancel_left same)).1
      exact Numeral.ofNat_injective (List.append_cancel_left names)
    have count := (List.Nodup.subperm distinct used).length_le
    simp only [List.length_map, List.length_range] at count
    omega

theorem freshName_ne (w : World) : freshName w ≠ "..".toList := by
  have front : (freshName w).head? = some 'd' := by
    unfold freshName
    simp only
    split <;> rfl
  intro same
  rw [same] at front
  exact absurd front (by decide)

/-- A temporary directory is made where nothing was and removed with all that is in it, so what
happens there does no harm. -/
theorem preserves_withDirectory (stable : Stable w₀ s I) {f : Path → Action α}
    (inside : ∀ name, name ≠ "..".toList →
      (∃ w, I w ∧ w.tree.get? (w₀.temporary ++ [name]) = none) →
        ∀ J, Stable w₀ (s.within (w₀.temporary ++ [name])) J →
          Preserves J (f ⟨.slash, w₀.temporary ++ [name]⟩)) :
    Preserves I (withDirectory f) := by
  intro w h
  have free := freshName_free w
  have temporary := (stable.stays h).temporary
  have inside := inside (freshName w) (freshName_ne w) ⟨w, h, temporary ▸ free⟩ _
    (stable.within _)
  rw [← temporary] at inside
  refine inside { w with tree := w.tree.put (w.temporary ++ [freshName w]) .directory } ?_
  show I { w with tree := FileTree.remove (w.tree.put _ _) _ }
  rw [remove_put_below List.prefix_rfl]
  exact stable.clear h free

/-- What is done in a temporary directory is done to the rest of the world as well. -/
theorem ensures_withDirectory {w : World} {f : Path → Action α} {Q : α → World → Prop}
    (inside : Ensures (· = { w with tree := w.tree.put (w.temporary ++ [freshName w]) .directory })
      (f ⟨.slash, w.temporary ++ [freshName w]⟩) Q) :
    Ensures (· = w) (withDirectory f) fun a w' => ∃ v, Q a v ∧
      w' = { v with tree := v.tree.remove (w.temporary ++ [freshName w]) } := by
  intro w₁ a w' same ran
  obtain rfl : w = w₁ := same.symm
  rw [perform_withDirectory] at ran
  extract_lets out at ran
  obtain ⟨done, rfl⟩ := Prod.mk.inj ran
  exact ⟨out.2, inside _ _ _ rfl (Prod.ext done rfl), rfl⟩

end Action

end FlowReport
