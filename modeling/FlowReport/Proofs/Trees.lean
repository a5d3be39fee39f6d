import FlowReport.Proofs.Places

/-!
# Trees that change

A tree changes by nodes that are put where nothing is, by files that take the place of files, and by
the removal of a place with all that is below it. `Accepts` says where a node can be put. In a
`Closed` tree nothing lies below a free place, so a place that was free before is removed without a
trace.
-/

namespace FlowReport.FileTree

variable {t : FileTree} {a b d start : Address} {node new : Node} {p : Path}

/-- All places above a place in use are directories. -/
def Closed (t : FileTree) : Prop := ∀ e ∈ t.entries, t.Reached e.1

instance (t : FileTree) : Decidable t.Closed :=
  inferInstanceAs (Decidable (∀ e ∈ t.entries, t.Reached e.1))

/-- The content of the file at an address, if there is one. -/
def fileAt? (t : FileTree) (a : Address) : Option Bytes :=
  match t.get? a with
  | some (.file content) => some content
  | _ => none

theorem fileAt?_eq_some_iff {content : Bytes} :
    t.fileAt? a = some content ↔ t.get? a = some (.file content) := by
  unfold fileAt?
  split <;> simp_all

theorem mem_of_find? {entries : List (Address × Node)} (h : find? a entries = some node) :
    (a, node) ∈ entries := by
  fun_induction find? a entries with
  | case1 => cases h
  | case2 old rest =>
    cases h
    exact List.mem_cons_self
  | case3 b old rest ne ih => exact List.mem_cons_of_mem _ (ih h)

theorem find?_ne_none_of_mem {entries : List (Address × Node)} {e : Address × Node}
    (member : e ∈ entries) : find? e.1 entries ≠ none := by
  induction entries with
  | nil => cases member
  | cons old rest ih => grind [find?]

theorem get?_ne_none_of_mem {e : Address × Node} (member : e ∈ t.entries) : t.get? e.1 ≠ none := by
  unfold get?
  split
  · simp
  · exact find?_ne_none_of_mem member

/-- What a closed tree holds at an address can be reached. -/
theorem Closed.holds (closed : t.Closed) (h : t.get? a = some node) : t.Holds a node := by
  refine ⟨h, ?_⟩
  by_cases root : a = []
  · subst root
    exact reached_root t
  · rw [get?, if_neg root] at h
    exact closed _ (mem_of_find? h)

/-- On the way to a directory there are directories only. -/
theorem Holds.get?_above (h : t.Holds d .directory) (above : a <+: d) :
    t.get? a = some .directory := by
  by_cases same : a = d
  · rw [same, h.node]
  · exact h.reached a above same

/-! ## Putting -/

/-- A node can be put at an address: nothing is there yet, or a file that a file takes the place
of. -/
structure Accepts (t : FileTree) (a : Address) (node : Node) : Prop where
  reached : t.Reached a
  room : t.get? a = none ∨ ∃ old content, t.get? a = some (.file old) ∧ node = .file content

theorem Accepts.not_directory (h : t.Accepts a node) : t.get? a ≠ some .directory := by
  rcases h.room with free | ⟨old, _, file, -⟩
  · rw [free]
    nofun
  · rw [file]
    nofun

theorem Accepts.ne_root (h : t.Accepts a node) : a ≠ [] := by
  rintro rfl
  exact h.not_directory rfl

theorem get?_put_of_ne (ne : a ≠ b) (new : Node) : (t.put b new).get? a = t.get? a := by
  by_cases root : a = []
  · subst root
    rfl
  · rw [get?_put t b a new root, if_neg ne]

theorem get?_put_self (h : t.Accepts a node) : (t.put a node).get? a = some node := by
  rw [get?_put t a a node h.ne_root, if_pos rfl]

theorem Reached.put (h : t.Reached a) (accepts : t.Accepts b new) : (t.put b new).Reached a := by
  intro c above ne
  have directory := h c above ne
  rw [get?_put_of_ne _ new, directory]
  rintro rfl
  exact accepts.not_directory directory

/-- A node stays unless a file takes its place. -/
theorem Holds.put (h : t.Holds a node) (accepts : t.Accepts b new)
    (other : node = .directory ∨ new = .directory ∨ b ≠ a) : (t.put b new).Holds a node := by
  refine ⟨?_, h.reached.put accepts⟩
  rw [get?_put_of_ne, h.node]
  rintro rfl
  rcases accepts.room with free | ⟨old, content, file, taken⟩
  · rw [h.node] at free
    cases free
  · rw [h.node, Option.some.injEq] at file
    subst file taken
    rcases other with directory | directory | ne
    · cases directory
    · cases directory
    · exact ne rfl

theorem holds_put (accepts : t.Accepts a node) : (t.put a node).Holds a node :=
  ⟨get?_put_self accepts, accepts.reached.put accepts⟩

theorem entries_put (free : t.get? b = none) (new : Node) :
    (t.put b new).entries = t.entries ++ [(b, new)] := by
  have unused : b ∉ t.entries.map (·.1) := by
    intro used
    obtain ⟨e, member, rfl⟩ := List.mem_map.1 used
    exact get?_ne_none_of_mem member free
  show replace b new t.entries = _
  generalize t.entries = entries at unused
  induction entries with
  | nil => rfl
  | cons e rest ih =>
    rw [List.map_cons, List.mem_cons, not_or] at unused
    rw [replace, if_neg (Ne.symm unused.1), ih unused.2, List.cons_append]

theorem mem_replace {entries : List (Address × Node)} {e : Address × Node}
    (h : e ∈ replace b new entries) : e = (b, new) ∨ e ∈ entries := by
  fun_induction replace b new entries with
  | case1 => exact .inl (List.mem_singleton.1 h)
  | case2 old rest => grind
  | case3 c old rest ne ih => grind

theorem Closed.put (closed : t.Closed) (accepts : t.Accepts b new) : (t.put b new).Closed := by
  intro e member
  rcases mem_replace member with rfl | member
  · exact accepts.reached.put accepts
  · exact (closed e member).put accepts

/-! ## Removing -/

theorem remove_remove (t : FileTree) (a b : Address) :
    (t.remove a).remove b = (t.remove b).remove a := by
  simp only [remove, List.filter_filter, Bool.and_comm]

theorem get?_remove_aside (aside : ¬ d <+: a) : (t.remove d).get? a = t.get? a := by
  by_cases root : a = []
  · subst root
    rfl
  · rw [get?_remove t d a root, if_neg (mt List.isPrefixOf_iff_prefix.1 aside)]

/-- A node stays if nothing on the way to it is removed. -/
theorem Holds.remove (h : t.Holds a node) (aside : ¬ d <+: a) : (t.remove d).Holds a node where
  node := by rw [get?_remove_aside aside, h.node]
  reached c above ne := by
    rw [get?_remove_aside fun front => aside (front.trans above), h.reached c above ne]

theorem get?_of_remove (h : (t.remove d).get? a = some node) : t.get? a = some node := by
  by_cases root : a = []
  · subst root
    exact h
  · rw [get?_remove t d a root] at h
    split at h
    · cases h
    · exact h

theorem Holds.of_remove (h : (t.remove d).Holds a node) : t.Holds a node :=
  ⟨get?_of_remove h.node, fun c above ne => get?_of_remove (h.reached c above ne)⟩

theorem remove_free (free : t.get? a = none) : (t.remove d).get? a = none := by
  cases there : (t.remove d).get? a with
  | none => rfl
  | some node =>
    rw [get?_of_remove there] at free
    cases free

/-- What was put at or below a place goes with it. -/
theorem remove_put_below (below : d <+: b) (new : Node) :
    (t.put b new).remove d = t.remove d := by
  have gone : d.isPrefixOf b = true := List.isPrefixOf_iff_prefix.2 below
  have entries : ∀ l : List (Address × Node), (replace b new l).filter (fun e => !d.isPrefixOf e.1) =
      l.filter fun e => !d.isPrefixOf e.1 := by
    intro l
    fun_induction replace b new l <;> grind
  exact congrArg FileTree.mk (entries t.entries)

/-- What was put elsewhere stays. -/
theorem remove_put_aside (aside : ¬ d <+: b) (new : Node) :
    (t.put b new).remove d = (t.remove d).put b new := by
  have stays : d.isPrefixOf b = false := Bool.eq_false_iff.2 (mt List.isPrefixOf_iff_prefix.1 aside)
  have entries : ∀ l : List (Address × Node), (replace b new l).filter (fun e => !d.isPrefixOf e.1) =
      replace b new (l.filter fun e => !d.isPrefixOf e.1) := by
    intro l
    fun_induction replace b new l <;> grind [replace]
  exact congrArg FileTree.mk (entries t.entries)

theorem Accepts.remove (h : t.Accepts b new) (aside : ¬ d <+: b) : (t.remove d).Accepts b new where
  reached c above ne := by
    rw [get?_remove_aside fun front => aside (front.trans above), h.reached c above ne]
  room := by
    rw [get?_remove_aside aside]
    exact h.room

/-- In a closed tree there is nothing to remove at a free place. -/
theorem Closed.remove_free (closed : t.Closed) (free : t.get? d = none) : t.remove d = t := by
  have kept : ∀ e ∈ t.entries, (!d.isPrefixOf e.1) = true := by
    intro e member
    rw [Bool.not_eq_true', Bool.eq_false_iff]
    intro above
    obtain ⟨node, there⟩ := Option.ne_none_iff_exists'.1 (get?_ne_none_of_mem member)
    exact (closed.holds there).not_above_of_free free (List.isPrefixOf_iff_prefix.1 above)
  exact congrArg FileTree.mk (List.filter_eq_self.2 kept)

/-! ## The operations of a tree -/

theorem accepts_of_write {content : Bytes} {t' : FileTree} (home : t.Reached start)
    (h : t.write start p content = .ok t') :
    t' = t.put (place start p) (.file content) ∧ t.Accepts (place start p) (.file content) := by
  unfold FileTree.write at h
  cases found : t.resolve start p with
  | error fault => rw [found] at h; cases h
  | ok b =>
    obtain ⟨rfl, reached⟩ := resolve_ok home found
    rw [found] at h
    change (if t.get? (place start p) = some .directory then _ else _) = _ at h
    split at h
    · cases h
    · rename_i file
      cases h
      refine ⟨rfl, reached, ?_⟩
      rcases there : t.get? (place start p) with _ | _ | old
      · exact .inl rfl
      · exact absurd there file
      · exact .inr ⟨old, content, rfl, rfl⟩

theorem accepts_of_makeDirectory {t' : FileTree} (home : t.Reached start)
    (h : t.makeDirectory start p = .ok t') :
    t' = t.put (place start p) .directory ∧ t.Accepts (place start p) .directory := by
  unfold makeDirectory at h
  cases found : t.resolve start p with
  | error fault => rw [found] at h; cases h
  | ok b =>
    obtain ⟨rfl, reached⟩ := resolve_ok home found
    simp only [found, bind, Except.bind] at h
    split at h
    · cases h
    · rename_i free
      cases h
      exact ⟨rfl, reached, .inl free⟩

section Provide

variable {P : FileTree → Prop} {root : Root}

theorem provideDirectory_steps
    (make : ∀ t t', P t → t.makeDirectory start p = .ok t' → P t') (h : P t) :
    P (t.provideDirectory start p).1 := by
  unfold provideDirectory
  split
  · rename_i made
    exact make t _ h made
  · exact h

theorem provideFrom_steps {names : List Text} (make : ∀ t t' front, P t → front <+: names.reverse →
      t.makeDirectory start ⟨root, front⟩ = .ok t' → P t') (h : P t) :
    P (t.provideFrom start root names).1 := by
  induction names generalizing t with
  | nil => exact provideDirectory_steps (fun t t' h => make t t' [] h List.nil_prefix) h
  | cons name above ih =>
    have last : ∀ {t}, P t → P (t.provideDirectory start ⟨root, (name :: above).reverse⟩).1 :=
      provideDirectory_steps fun t t' h => make t t' _ h List.prefix_rfl
    have front : ∀ {t}, P t → P (t.provideFrom start root above).1 := by
      intro t h
      refine ih ?_ h
      intro t t' names h above
      apply make t t' names h
      rw [List.reverse_cons]
      exact above.trans (List.prefix_append _ _)
    rw [provideFrom]
    split
    · split
      · rename_i provided
        have := front h
        rw [provided] at this
        exact last this
      · exact front h
    · exact last h

/-- Making directories makes one after the other. -/
theorem provideDirectories_steps (make : ∀ t t' front, P t → front <+: p.names →
      t.makeDirectory start ⟨p.root, front⟩ = .ok t' → P t') (h : P t) :
    P (t.provideDirectories start p).1 := by
  apply provideFrom_steps _ h
  rw [List.reverse_reverse]
  exact make

/-- Where the start is there, each one is made where nothing was. -/
theorem provideDirectories_induction (home : ∀ t, P t → t.Reached start)
    (make : ∀ t front, P t → front <+: p.names →
      t.Accepts (place start ⟨p.root, front⟩) .directory →
        P (t.put (place start ⟨p.root, front⟩) .directory)) (h : P t) :
    P (t.provideDirectories start p).1 := by
  refine provideDirectories_steps ?_ h
  intro t t' front h way made
  obtain ⟨rfl, accepts⟩ := accepts_of_makeDirectory (home t h) made
  exact make t front h way accepts

end Provide

end FlowReport.FileTree
