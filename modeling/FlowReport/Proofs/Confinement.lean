import FlowReport.Proofs.PageFiles
import FlowReport.Proofs.ReportRuns

/-!
# What a report changes

Preparing a report and writing its pages changes nothing outside the directory of the pages, as long
as the programs keep to what they are asked for and no name of a function leads out of that directory.
Making the directory opens the way to it, and so does writing a first page: from then on no directory
has to be made above it.
-/

namespace FlowReport

open Assembly FileTree FlowReport.Action World

namespace FileTree

variable {t t' : FileTree} {start : Address} {p : Path}

theorem put_of_write {content : Bytes} (h : t.write start p content = .ok t') :
    t' = t.put (place start p) (.file content) ∧ t.get? (place start p) ≠ some .directory := by
  unfold FileTree.write at h
  cases found : t.resolve start p with
  | error fault => rw [found] at h; cases h
  | ok a =>
    obtain ⟨-, rfl, -⟩ := resolve_eq_ok_iff.1 found
    rw [found] at h
    change (if _ then _ else _) = _ at h
    split at h
    · cases h
    · rename_i other
      cases h
      exact ⟨rfl, other⟩

theorem put_of_makeDirectory (h : t.makeDirectory start p = .ok t') :
    t' = t.put (place start p) .directory ∧ t.get? (place start p) = none ∧ t.Entered start p := by
  unfold FileTree.makeDirectory at h
  cases found : t.resolve start p with
  | error fault => rw [found] at h; cases h
  | ok a =>
    obtain ⟨-, rfl, entered⟩ := resolve_eq_ok_iff.1 found
    simp only [found, bind, Except.bind] at h
    split at h
    · cases h
    · rename_i free
      cases h
      exact ⟨rfl, free, entered⟩

end FileTree

namespace World

/-- Outside a directory all is as it was in `w₀`. -/
structure Confines (w₀ : World) (d : Address) (w : World) : Prop where
  directory : w.directory = w₀.directory
  aside : ∀ a, ¬ d <+: a → w.tree.get? a = w₀.tree.get? a

/-- The path leads to a directory. -/
def Opens (w₀ : World) (p : Path) (w : World) : Prop :=
  ∀ front, front <+: p.names →
    w.tree.get? (place w₀.directory ⟨p.root, front⟩) = some .directory

variable {w₀ w : World} {d b : Address} {p q : Path} {node : Node}

theorem confines_self (w₀ : World) (d : Address) : Confines w₀ d w₀ := ⟨rfl, fun _ _ => rfl⟩

/-- What is put into the directory stays there. -/
theorem Confines.put (h : Confines w₀ d w) (inside : d <+: b) (node : Node) :
    Confines w₀ d { w with tree := w.tree.put b node } where
  directory := h.directory
  aside a outside := by
    have ne : a ≠ b := by
      rintro rfl
      exact outside inside
    rw [get?_put_of_ne ne, h.aside a outside]

theorem Confines.remove (h : Confines w₀ d w) (inside : d <+: b) :
    Confines w₀ d { w with tree := w.tree.remove b } where
  directory := h.directory
  aside a outside := by
    rw [get?_remove_aside fun below => outside (inside.trans below), h.aside a outside]

/-- No directory on the way is replaced. -/
theorem Opens.put (h : Opens w₀ p w) (other : w.tree.get? b ≠ some .directory) (node : Node) :
    Opens w₀ p { w with tree := w.tree.put b node } := by
  intro front way
  have directory := h front way
  rw [get?_put_of_ne _ node, directory]
  rintro rfl
  exact other directory

theorem exists_prefix_concat {front whole : List Text} (way : front <+: whole) (ne : front ≠ whole) :
    ∃ next, front ++ [next] <+: whole := by
  obtain ⟨back, rfl⟩ := way
  cases back with
  | nil => exact absurd (List.append_nil front).symm ne
  | cons next rest => exact ⟨next, rest, by rw [List.append_assoc, List.singleton_append]⟩

/-- The way to a directory is open if something below it can be entered. -/
theorem opens_of_entered {more : List Text} (nonempty : more ≠ [])
    (entered : w.tree.Entered w₀.directory ⟨p.root, p.names ++ more⟩) : Opens w₀ p w := by
  intro front way
  have further : front ≠ p.names ++ more := by
    rintro rfl
    exact nonempty (List.append_right_eq_self.1 (way.eq_of_length_le (by simp)))
  obtain ⟨next, further⟩ := exists_prefix_concat (way.trans (List.prefix_append _ _)) further
  exact (entered_iff.1 entered front next further).1

/-- The way to the directory of the pages is open, and outside of it all is as it was. -/
structure Opened (w₀ : World) (p : Path) (w : World) : Prop where
  confines : Confines w₀ (place w₀.directory p) w
  opens : Opens w₀ p w

theorem Opened.put (h : Opened w₀ p w) (inside : place w₀.directory p <+: b)
    (other : w.tree.get? b ≠ some .directory) (node : Node) :
    Opened w₀ p { w with tree := w.tree.put b node } :=
  ⟨h.confines.put inside node, h.opens.put other node⟩

section Steps

variable {content : Bytes}

theorem confines_log (level : Level) (topic : Topic) (message : Text) :
    Preserves (Confines w₀ d) (Action.log level topic message) := fun _ h => ⟨h.directory, h.aside⟩

theorem opened_log (level : Level) (topic : Topic) (message : Text) :
    Preserves (Opened w₀ p) (Action.log level topic message) :=
  fun _ h => ⟨⟨h.confines.directory, h.confines.aside⟩, h.opens⟩

theorem confines_removeTree (inside : d <+: place w₀.directory q) :
    Preserves (Confines w₀ d) (removeTree q) := by
  apply Preserves.get_bind
  intro w h
  cases found : w.tree.resolve w.directory q with
  | error fault => exact h
  | ok a =>
    obtain ⟨-, rfl, -⟩ := resolve_eq_ok_iff.1 found
    dsimp only
    split
    · exact h
    · exact h
    · exact h.remove (h.directory ▸ inside)

theorem confines_makeDirectory (inside : d <+: place w₀.directory q) :
    Preserves (Confines w₀ d) (makeDirectory q) := by
  refine preserves_checkNull.bind ?_
  intro _
  apply Preserves.get_bind
  intro w h
  cases made : w.tree.makeDirectory w.directory q with
  | error fault => exact h
  | ok t =>
    rw [h.directory] at made
    obtain ⟨rfl, -⟩ := put_of_makeDirectory made
    exact h.put inside _

theorem opened_makeDirectory (inside : place w₀.directory p <+: place w₀.directory q) :
    Preserves (Opened w₀ p) (makeDirectory q) := by
  refine preserves_checkNull.bind ?_
  intro _
  apply Preserves.get_bind
  intro w h
  cases made : w.tree.makeDirectory w.directory q with
  | error fault => exact h
  | ok t =>
    rw [h.confines.directory] at made
    obtain ⟨rfl, free, -⟩ := put_of_makeDirectory made
    exact h.put inside (by rw [free]; nofun) _

theorem opened_writeBytes (inside : place w₀.directory p <+: place w₀.directory q) :
    Preserves (Opened w₀ p) (writeBytes q content) := by
  refine preserves_checkNull.bind ?_
  intro _
  apply Preserves.get_bind
  intro w h
  cases written : w.tree.write w.directory q content with
  | error fault => exact h
  | ok t =>
    rw [h.confines.directory] at written
    obtain ⟨rfl, other⟩ := put_of_write written
    exact h.put inside other _

/-- The directories that are made below an open one are in it. -/
theorem opened_provideDirectories (inner : Path.Inner 0 q) :
    Preserves (Opened w₀ p) (provideDirectories (p ++ q)) := by
  refine preserves_checkNull.bind ?_
  intro _
  apply Preserves.get_bind
  intro w h
  have made : Opened w₀ p
      { w with tree := (w.tree.provideDirectories w₀.directory (p ++ q)).1 } := by
    apply provideDirectories_steps (P := fun t => Opened w₀ p { w with tree := t }) _ h
    intro t t' front h way made
    obtain ⟨rfl, free, -⟩ := put_of_makeDirectory made
    have root : (p ++ q).root = p.root := by rw [Path.append_of_relative inner.relative]
    rw [root] at free ⊢
    rcases prefix_place_front (List.append_nil _).symm inner way with before | inside
    · -- a directory on the way is there
      exact absurd (h.opens front before) (by rw [free]; nofun)
    · exact h.put inside (by rw [free]; nofun) _
  rw [← h.confines.directory] at made
  rcases done : w.tree.provideDirectories w.directory (p ++ q) with ⟨t, stopped⟩
  rw [done] at made
  cases stopped <;> exact made

/-- A directory that was made can be entered. -/
theorem ensures_makeDirectory_opened :
    Ensures (Confines w₀ (place w₀.directory p)) (makeDirectory p) fun _ => Opened w₀ p := by
  intro w _ w' h ran
  have confines := confines_makeDirectory (q := p) List.prefix_rfl w h
  rw [ran] at confines
  refine ⟨confines, ?_⟩
  obtain ⟨_, mid, checked, made⟩ := perform_bind_iff.1 ran
  obtain rfl : w = mid := (perform_checkNull_ok checked).symm
  change perform (commit p (w.tree.makeDirectory w.directory p)) w = _ at made
  cases grown : w.tree.makeDirectory w.directory p with
  | error fault => rw [grown] at made; cases made
  | ok t =>
    rw [grown] at made
    cases made
    rw [h.directory] at grown
    obtain ⟨rfl, free, entered⟩ := put_of_makeDirectory grown
    have ne : place w₀.directory p ≠ [] := by
      intro root
      rw [root] at free
      cases free
    intro front way
    show (w.tree.put _ _).get? _ = _
    by_cases last : place w₀.directory ⟨p.root, front⟩ = place w₀.directory p
    · rw [last, get?_put _ _ _ _ ne, if_pos rfl]
    · have before : front ≠ p.names := fun same => last (by rw [same])
      obtain ⟨next, further⟩ := exists_prefix_concat way before
      rw [get?_put_of_ne last, (entered_iff.1 entered front next further).1]

end Steps

section Stable

/-- The world rests, and outside a directory all is as it was in `w₀`. -/
structure Sealed (w₀ : World) (d : Address) (w : World) : Prop where
  rests : Rests w₀ w
  confines : Confines w₀ d w

theorem stable_sealed (w₀ : World) (d : Address) :
    Stable w₀ ⟨fun b _ => d <+: b ∨ b <+: w₀.temporary, fun _ => True⟩ (Sealed w₀ d) where
  stays h := h.rests.stays
  log lines h := ⟨(stable_rests w₀).log lines h.rests, h.confines.directory, h.confines.aside⟩
  call c h _ := ⟨(stable_rests w₀).call c h.rests trivial, h.confines.directory, h.confines.aside⟩
  put h allowed accepts := by
    refine ⟨(stable_rests w₀).put h.rests trivial accepts,
      h.confines.put (allowed.resolve_right fun above => ?_) _⟩
    exact accepts.not_directory (h.rests.temporary.get?_above above)
  clear h free := by
    rw [h.rests.closed.remove_free free]
    exact h

/-- Where the way to a directory is open, the directories on the way may be asked for as well. -/
theorem stable_opened (w₀ : World) (p : Path) :
    Stable w₀ ⟨fun b _ => (place w₀.directory p <+: b ∨ b <+: w₀.temporary) ∨
      ∃ front, front <+: p.names ∧ b = place w₀.directory ⟨p.root, front⟩, fun _ => True⟩ fun w =>
        Rests w₀ w ∧ Opened w₀ p w where
  stays h := h.1.stays
  log lines h := ⟨(stable_rests w₀).log lines h.1, ⟨h.2.confines.directory, h.2.confines.aside⟩,
    h.2.opens⟩
  call c h _ := ⟨(stable_rests w₀).call c h.1 trivial,
    ⟨h.2.confines.directory, h.2.confines.aside⟩, h.2.opens⟩
  put h allowed accepts := by
    refine ⟨(stable_rests w₀).put h.1 trivial accepts, h.2.put ?_ accepts.not_directory _⟩
    rcases allowed with (inside | above) | ⟨front, way, rfl⟩
    · exact inside
    · exact absurd (h.1.temporary.get?_above above) accepts.not_directory
    · exact absurd (h.2.opens front way) accepts.not_directory
  clear h free := by
    rw [h.1.closed.remove_free free]
    exact h

end Stable

end World

namespace Report

variable {r : Report} {w₀ : World}

theorem child_child {p : Path} {s t : Text} (hs : (Path.ofText s).root = .relative)
    (ht : (Path.ofText t).root = .relative) :
    (p.child s).child t = p ++ (Path.ofText s ++ Path.ofText t) := by
  show p ++ Path.ofText s ++ Path.ofText t = _
  have both : (Path.ofText s ++ Path.ofText t).root = .relative := by
    rw [Path.append_of_relative ht, hs]
  rw [Path.append_of_relative both, Path.append_of_relative hs, Path.append_of_relative ht,
    Path.append_of_relative ht, List.append_assoc]

/-- Style sheets go into their directory. -/
theorem opened_writeSheets {p q : Path} (inner : Path.Inner 0 q) {styles : List Text}
    (plain : ∀ name ∈ styles, '/' ∉ name) :
    Preserves (Opened w₀ p) (Style.writeSheets (p ++ q) styles) := by
  refine (opened_provideDirectories inner).bind ?_
  intro _
  refine Preserves.bind (.mapM ?_) fun _ => (opened_log _ _ _).bind fun _ => .pure _
  intro name member
  refine (preserves_resolve_of opened_log name).bind fun _ => ?_
  refine (opened_writeBytes ?_).bind fun _ => .pure _
  have unbroken : '/' ∉ "chroma_".toList ++ name ++ ".css".toList := by
    rw [List.mem_append, List.mem_append, not_or, not_or]
    exact ⟨⟨by decide, plain name member⟩, by decide⟩
  have long : 2 < ("chroma_".toList ++ name ++ ".css".toList).length := by
    rw [List.length_append, List.length_append, show ".css".toList.length = 4 from rfl]
    omega
  show place w₀.directory p <+: place w₀.directory ((p ++ q).child _)
  rw [place_child_long unbroken long]
  exact (prefix_place_append (List.append_nil _).symm inner).trans (List.prefix_append _ _)

theorem unbroken_styles : ∀ name ∈ Style.names, '/' ∉ name := by
  decide +kernel

/-- The files that every report holds are written into the directory of the pages. -/
theorem opened_writeAssets : Preserves (Opened w₀ r.output) r.writeAssets := by
  have path : ∀ s, (Path.ofText s).root = .relative →
      (r.output.child "inc").child s = r.output ++ (Path.ofText "inc" ++ Path.ofText s) :=
    fun s => child_child (by decide)
  refine (opened_log _ _ _).bind fun _ => ?_
  rw [path "css" (by decide), path "js" (by decide), path "css/explore.css" (by decide),
    path "js/style.js" (by decide)]
  refine (opened_provideDirectories (by decide)).bind fun _ => ?_
  refine (opened_provideDirectories (by decide)).bind fun _ => ?_
  have file : ∀ {q content}, Path.Inner 0 q →
      Preserves (Opened w₀ r.output) (writeBytes (r.output ++ q) content) := fun inner =>
    opened_writeBytes (prefix_place_append (List.append_nil _).symm inner)
  refine Preserves.bind (file (by decide)) fun _ => ?_
  refine Preserves.bind (file (by decide)) fun _ => ?_
  exact (opened_writeSheets (by decide) unbroken_styles).bind fun _ => .pure _

theorem preserves_isThere {I : World → Prop} {p : Path} : Preserves I (isThere p) :=
  preserves_look.bind fun _ => .pure _

/-- An old directory of the pages goes, and nothing else does. -/
theorem confines_makeOutput (force : Bool) :
    Preserves (Confines w₀ (place w₀.directory r.output)) (r.makeOutput force) ∧
      Ensures (Confines w₀ (place w₀.directory r.output)) (r.makeOutput force) fun _ =>
        Opened w₀ r.output := by
  have images : Preserves (Opened w₀ r.output) (makeDirectory (r.output.child "img")) :=
    opened_makeDirectory (by rw [place_images]; exact List.prefix_append _ _)
  have old : Preserves (Confines w₀ (place w₀.directory r.output)) (removeTree r.output) :=
    confines_removeTree List.prefix_rfl
  unfold makeOutput
  extract_lets rest
  have kept : Preserves (Confines w₀ (place w₀.directory r.output)) (rest ()) :=
    (confines_log _ _ _).bind fun _ => (confines_makeDirectory List.prefix_rfl).bind_ensures
      ensures_makeDirectory_opened fun _ w h => (images w h).confines
  have made : Ensures (Confines w₀ (place w₀.directory r.output)) (rest ()) fun _ =>
      Opened w₀ r.output :=
    Ensures.bind (.of_preserves (confines_log _ _ _)) fun _ =>
      ensures_makeDirectory_opened.bind fun _ => .of_preserves images
  constructor
  · refine .ite (fun _ => ?_) fun _ => kept
    exact preserves_isThere.bind fun _ => .ite (fun _ => old.bind fun _ => kept) fun _ => kept
  · refine .ite (fun _ => ?_) fun _ => made
    exact Ensures.bind (.of_preserves preserves_isThere) fun _ =>
      .ite (fun _ => Ensures.bind (.of_preserves old) fun _ => made) fun _ => made

/-- Preparing a report changes nothing outside the directory of the pages. -/
theorem confines_init (force : Bool) :
    Preserves (Confines w₀ (place w₀.directory r.output)) (r.init force) := by
  have kept : Preserves (Confines w₀ (place w₀.directory r.output)) (r.makeOutput force) ∧ _ :=
    confines_makeOutput force
  exact kept.1.bind_ensures kept.2 fun _ w h =>
    (opened_writeAssets.bind (fun _ => .pure _) w h).confines

section Explore

variable {function : Text} {page : Page Primitive}

/-- Where a file below the directory of the pages was written, the way to the directory is open. -/
theorem ensures_write_opens {I : World → Prop} (here : ∀ w, I w → w.directory = w₀.directory)
    (logged : ∀ level topic message, Preserves I (Action.log level topic message)) {name : Text}
    {content : WideText} (relative : (Path.ofText name).root = .relative)
    (named : (Path.ofText name).names ≠ []) :
    Ensures I (r.write name content) fun _ => Opens w₀ r.output := by
  have bytes : ∀ content, Ensures I (writeBytes (r.output.child name) content) fun _ =>
      Opens w₀ r.output := by
    intro content w u w' h ran
    obtain ⟨t, written, rfl⟩ := perform_writeBytes ran
    rw [here w h] at written
    have entered := FileTree.entered_of_write written
    rw [Path.child, Path.append_of_relative relative] at entered
    obtain ⟨rfl, other⟩ := put_of_write written
    exact (opens_of_entered named entered).put other _
  refine Ensures.bind (.of_preserves (logged _ _ _)) fun _ => ?_
  unfold writeWide
  split
  · exact bytes _
  · exact (bytes _).bind fun _ => .throw _

theorem inner_fileName (inner : Path.Inner 0 (Path.above function)) (pane : Pane) (page : Nat) :
    (Path.ofText (pane.fileName function page)).root = .relative ∧
      (Path.ofText (pane.fileName function page)).names ≠ [] := by
  rw [Pane.fileName_eq, List.append_assoc, Path.ofText_append (length_ending _ _)
    (unbroken_ending _ _)]
  exact ⟨inner.relative, by simp⟩

/-- The directories above the image on a page are on the way to the pages, or below them. -/
theorem makes_image (inner : Path.Inner 1 (Path.above function)) {s : Scope}
    (before : ∀ front, front <+: r.output.names →
      s.puts (place w₀.directory ⟨r.output.root, front⟩) .directory)
    (below : ∀ b, place w₀.directory r.output <+: b → s.puts b .directory) :
    s.Makes w₀.directory (r.image function page).parent := by
  obtain ⟨ending, long, unbroken, -, name⟩ := imageName_eq function page.number
  have images : r.output.child "img" = ⟨r.output.root, r.output.names ++ ["img".toList]⟩ :=
    Path.child_name (by decide) (by decide) _
  rw [image, name, Path.parent_child_append long unbroken]
  intro front way
  have root : (r.output.child "img" ++ Path.above function).root = r.output.root := by
    rw [Path.append_of_relative inner.relative, images]
  rw [root]
  rcases prefix_place_front place_images inner way with above | inside
  · rw [images] at above
    rcases List.prefix_concat_iff.1 above with rfl | above
    · rw [← images, place_images]
      exact below _ (List.prefix_append _ _)
    · exact before front above
  · rw [images] at inside
    exact below _ inside

section Modest

variable (modest : w₀.Modest r.config.layouter) (straight : "..".toList ∉ w₀.temporary)

include modest straight

/-- A page of a function whose name stays in the directory changes nothing outside of it. -/
theorem sealed_explorePage {f : Function} (inner : Path.Inner 0 (Path.above f.name))
    {debug : Option Function} {code : Option Text} {count : Nat} :
    Preserves (Sealed w₀ (place w₀.directory r.output)) (r.explorePage f debug code count page) := by
  have stable := stable_sealed w₀ (place w₀.directory r.output)
  have inside : ∀ pane, place w₀.directory r.output <+:
      r.pagePlace w₀.directory f.name pane page.number :=
    fun pane => place_output_pagePlace inner pane _
  have once := inner.mono (Nat.zero_le 1)
  have staging : Toolchain.Staging w₀
      ⟨fun b _ => place w₀.directory r.output <+: b ∨ b <+: w₀.temporary, fun _ => True⟩
      (Sealed w₀ (place w₀.directory r.output)) r.config r.assemblyName f.name :=
    Toolchain.staging_confined modest.confined straight r.unbroken_assemblyName once
      (fun _ => .inr) fun _ _ _ _ _ => trivial
  refine (Preserves.ofExcept _).bind fun lines => ?_
  refine (Toolchain.preserves_decompile stable staging _ _).bind fun output => ?_
  refine preserves_writePage_behind stable (stable_opened w₀ r.output) (fun w h => ⟨h.1, h.2.confines⟩)
    (fun _ => .inl (inside _)) ?_ ?_ fun pane _ _ => .inl (.inl (inside pane))
  · have opens : Ensures (Sealed w₀ (place w₀.directory r.output))
        (r.writeOverview f.name page count code.isSome) fun _ => Opens w₀ r.output := by
      obtain ⟨relative, named⟩ := inner_fileName inner .overview page.number
      exact Ensures.bind (.of_preserves (.ofExcept _)) fun _ =>
        ensures_write_opens (fun w h => h.confines.directory) (preserves_log stable) relative named
    refine ((Ensures.of_preserves (preserves_writeOverview stable fun _ => .inl (inside _))).and
      opens).mono (fun _ h => h) ?_
    exact fun _ w h => ⟨h.1.rests, h.1.confines, h.2⟩
  · exact draws_of_modest modest (fun _ _ => .inl (.inl (place_output_imagePlace once _)))
      (makes_image once (fun front way => .inr ⟨front, way, rfl⟩) fun _ below => .inl (.inl below))
      fun _ => trivial

/-- A run changes nothing outside the directory of the pages if no name that is written leads out of
it. -/
theorem sealed_explore {names : List Text}
    (inner : ∀ f ∈ r.written names, Path.Inner 0 (Path.above f.name)) :
    Preserves (Sealed w₀ (place w₀.directory r.output)) (r.explore names) := by
  have stable := stable_sealed w₀ (place w₀.directory r.output)
  unfold explore
  extract_lets rest
  refine .ite (fun _ => .throw _) fun _ => ?_
  refine (preserves_readSource stable).bind fun code => ?_
  refine (preserves_selected stable names).bind_ensures
    ((ensures_selected names).and (.of_preserves (preserves_selected stable names))) ?_
  rintro _ w ⟨rfl, h⟩
  rw [filter_isWanted]
  have pages : Preserves (Sealed w₀ (place w₀.directory r.output))
      ((r.written names).forM fun f => r.exploreFunction f code) :=
    .forM fun f member => preserves_exploreFunction_of stable fun _ _ _ _ =>
      sealed_explorePage modest straight (inner f member)
  refine pages.bind (fun _ => ?_) w h
  refine (preserves_writeIndex stable fun _ => .inl ?_).bind fun _ => .pure _
  rw [place_child_long (by decide) (by decide)]
  exact List.prefix_append _ _

end Modest

end Explore

/-! ## Names that lead out -/

/-- A file without an ending gives its name to the directory of the pages. -/
theorem place_output_of_plain {path : Text} (plain : '/' ∉ path) (undotted : '.' ∉ path)
    (file : path ≠ []) (other : path ≠ Input.standard) (here : r.path = path) :
    place [] r.output = [path ++ "_explore".toList] := by
  have name : (Path.ofText path).name = path := by
    have dot : path ≠ ['.'] := by
      rintro rfl
      exact undotted List.mem_cons_self
    rw [Path.ofText_of_unbroken plain, if_neg (by simp [file, dot])]
    rfl
  have base : Input.base path = path := by
    rw [Input.base, if_neg other]
    dsimp only
    rw [Path.suffix, name, Path.splitName_of_undotted undotted, if_pos rfl]
  rw [place_output, here, base, Path.above_of_unbroken plain, Path.base_of_unbroken plain]
  rfl

/-- Pages stay in the directory of the pages, wherever it is, if and only if the name of the function
does. -/
theorem inner_iff_pagePlace {function : Text} : Path.Inner 0 (Path.above function) ↔
    ∀ (r : Report) start pane page,
      place start r.output <+: r.pagePlace start function pane page := by
  constructor
  · intro inner r start pane page
    exact place_output_pagePlace inner pane page
  · intro inside
    -- a directory that the name of the function does not name
    let path := Text.longerThan (Path.above function).names
    let r : Report := { path, assembly := ⟨[], [], [], none, [], [], [], []⟩, style := [] }
    have only : ∀ c ∈ path, c = 'x' := fun c => Text.eq_of_mem_longerThan
    have output : place [] r.output = [path ++ "_explore".toList] := by
      refine place_output_of_plain ?_ ?_ (List.cons_ne_nil _ _) ?_ rfl
      · exact fun slash => absurd (only _ slash) (by decide)
      · exact fun dot => absurd (only _ dot) (by decide)
      · exact fun same => absurd (List.cons.inj same).1 (by decide)
    have fresh : path ++ "_explore".toList ∉ (Path.above function).names := by
      intro member
      have long := Text.length_lt_longerThan member
      rw [List.length_append] at long
      exact absurd (Nat.le_add_right _ _) (Nat.not_le.2 long)
    have first := inside r [] .overview 1
    rw [output, pagePlace_eq] at first
    rcases List.prefix_concat_iff.1 first with same | home
    · -- a page has another ending than the directory
      have last := lastChar_pagePlace r [] function .overview 1
      rw [pagePlace_eq, ← same, lastChar, List.getLast?_singleton, Option.bind_some,
        List.getLast?_append_of_ne_nil _ (by decide)] at last
      exact absurd last (by decide)
    · have seen : place [] r.output = [] ++ [path ++ "_explore".toList] ++ [] := output
      exact inner_of_prefix fresh seen home

/-- What is staged stays in the directory of the call, wherever it is, if and only if the name of the
function leads up once at most. -/
theorem inner_iff_record {function : Text} : Path.Inner 1 (Path.above function) ↔
    ∀ names, "..".toList ∉ names → ∀ start assemblyName, names <+: place start (PrimitiveFile.path
      ((⟨.slash, names⟩ : Path).child (Toolchain.graphsName assemblyName)) function) := by
  constructor
  · intro inner names straight start assemblyName
    exact Toolchain.prefix_place_record straight inner start assemblyName
  · intro inside
    let name := Text.longerThan (Path.above function).names
    have only : ∀ c ∈ name, c = 'x' := fun c => Text.eq_of_mem_longerThan
    have straight : "..".toList ∉ [name] := by
      rw [List.mem_singleton]
      intro same
      exact absurd (only '.' (same ▸ by decide)) (by decide)
    have fresh : name ∉ (Path.above function).names := fun member =>
      absurd (Text.length_lt_longerThan member) (lt_irrefl _)
    have first := inside [name] straight [] []
    have last : lastChar (place [] (PrimitiveFile.path
        ((⟨.slash, [name]⟩ : Path).child (Toolchain.graphsName [])) function)) = some 'n' :=
      lastChar_child_append (by decide) (by decide) _ _ _
    rw [PrimitiveFile.path, place_child_append (by decide) (by decide)] at first last
    rcases List.prefix_concat_iff.1 first with same | home
    · rw [← same, lastChar, List.getLast?_singleton, Option.bind_some] at last
      exact absurd (only _ (List.mem_of_getLast? last)) (by decide)
    · have seen : place [] ((⟨.slash, [name]⟩ : Path).child (Toolchain.graphsName [])) =
          [] ++ [name] ++ [Toolchain.graphsName []] := by
        rw [Toolchain.child_graphsName]
        exact Toolchain.place_graphsName straight [] []
      exact inner_of_prefix fresh seen home

/-- A report keeps to its directory: preparing it changes nothing elsewhere, and neither does a run
in which no name of a function leads out of it, nor a call of the decompiler for a function whose name
leads up once at most. For all other names there are places that are reached outside. -/
theorem report_keeps_to_its_directory {r : Report} {w₀ : World} (settled : w₀.Settled)
    (modest : w₀.Modest r.config.layouter) :
    (∀ force a, r.Outside w₀.directory a →
      (perform (r.init force) w₀).2.tree.get? a = w₀.tree.get? a) ∧
    (∀ names, (∀ f ∈ r.written names, Path.Inner 0 (Path.above f.name)) →
      ∀ a, r.Outside w₀.directory a →
        (perform (r.explore names) w₀).2.tree.get? a = w₀.tree.get? a) ∧
    (∀ function prims, Path.Inner 1 (Path.above function) →
      (perform (r.decompile function prims) w₀).2.tree = w₀.tree) ∧
    (∀ function, Path.Inner 0 (Path.above function) ↔
      ∀ (r : Report) start pane page,
        place start r.output <+: r.pagePlace start function pane page) ∧
    (∀ function, Path.Inner 1 (Path.above function) ↔
      ∀ names, "..".toList ∉ names → ∀ start assemblyName, names <+: place start
        (PrimitiveFile.path ((⟨.slash, names⟩ : Path).child (Toolchain.graphsName assemblyName))
          function)) := by
  refine ⟨?_, ?_, ?_, fun _ => inner_iff_pagePlace, fun _ => inner_iff_record⟩
  · intro force a outside
    exact (confines_init force w₀ (confines_self w₀ _)).aside a outside
  · intro names inner a outside
    exact (sealed_explore modest settled.straight inner w₀
      ⟨settled.rests, confines_self w₀ _⟩).confines.aside a outside
  · intro function prims inner
    exact (Toolchain.still_decompile settled modest.confined r.unbroken_assemblyName inner _ prims).1

/-- Three functions with slashes in their names. -/
def slashedText : Text :=
  "define void @\"sub/e\"() \x7b\nret void\n\x7d\ndefine void @\"../e\"() \x7b\nret void\n\x7d\n" ++
    "define void @\"../../e\"() \x7b\nret void\n\x7d\n"

/-- A report with short templates. -/
def slashedReport (m : Module) : Report where
  path := "r.ll"
  assembly := m
  style := "default"
  templates := some [
    ("overview", "overview of $func_name"), ("llvm", "assembly of $func_name"),
    ("cfa", "graph of $func_name"), ("go", "code of $func_name"), ("index", "$funcs_html")]

/-- A world with a file beside the directory of the pages, in which no primitives are recovered and
programs do nothing. -/
def slashedWorld : World where
  tree := ⟨[(["r_explore"], .directory), (["r_explore", "sub"], .directory),
    (["r_graphs"], .directory), (["r_graphs", "sub"], .directory), (["tmp"], .directory),
    (["r_graphs", "sub", "e.json"], .file (Utf8.encode "[]")),
    (["e.json"], .file (Utf8.encode "[]")), (["e_0001.html"], .file (Utf8.encode "mine"))]⟩
  temporary := ["tmp"]
  respond _ := some {}

theorem settled_slashedWorld : slashedWorld.Settled :=
  ⟨by decide +kernel, rfl, by decide +kernel, by decide +kernel⟩

theorem idle_slashedWorld : slashedWorld.Idle := by
  rintro call outcome ⟨⟩
  rfl

/-- The pages of `sub/e` go into a directory in that of the pages. -/
theorem report_keeps_to_its_directory_sub :
    ∃ m, Module.ofText slashedText = .ok m ∧ ∃ w,
      perform ((slashedReport m).explore ["sub/e"]) slashedWorld = (.ok ["sub/e"], w) ∧
      ∀ a, (slashedReport m).Outside [] a → w.tree.get? a = slashedWorld.tree.get? a := by
  obtain ⟨m, parsed, names, ran⟩ : ∃ m, Module.ofText slashedText = .ok m ∧
      (∀ f ∈ (slashedReport m).written ["sub/e"], Path.Inner 0 (Path.above f.name)) ∧
      (perform ((slashedReport m).explore ["sub/e"]) slashedWorld).1.toOption =
        some ["sub/e".toList] :=
    ⟨_, by cbv, by decide +kernel, by decide +kernel⟩
  obtain ⟨-, pages, -⟩ := report_keeps_to_its_directory (r := slashedReport m) settled_slashedWorld
    (idle_slashedWorld.modest _)
  exact ⟨m, parsed, _, perform_eq_ok ran, pages _ names⟩

/-- The overview of `../e` takes the place of a file beside the directory of the pages, and what is
staged for `../../e` is left beside the directory of the call. -/
theorem report_leaves_its_directory :
    slashedWorld.Settled ∧ ∃ m, Module.ofText slashedText = .ok m ∧
      slashedWorld.Modest (slashedReport m).config.layouter ∧
      (slashedReport m).Outside [] ["e_0001.html"] ∧
      slashedWorld.tree.get? ["e_0001.html"] = some (.file (Utf8.encode "mine")) ∧
      (perform ((slashedReport m).explore ["../e"]) slashedWorld).1.toOption =
        some ["../e".toList] ∧
      (perform ((slashedReport m).explore ["../e"]) slashedWorld).2.tree.get? ["e_0001.html"] =
        some (.file (Utf8.encode "overview of ../e")) ∧
      slashedWorld.tree.get? ["tmp", "e.json"] = none ∧
      (perform ((slashedReport m).decompile "../../e" []) slashedWorld).2.tree.get?
        ["tmp", "e.json"] = some (.file (Utf8.encode "[]\n")) := by
  refine ⟨settled_slashedWorld, _, by cbv, idle_slashedWorld.modest _, ?_, ?_, ?_, ?_, ?_, ?_⟩
  · unfold Outside
    decide +kernel
  all_goals decide +kernel

end Report

end FlowReport
