import FlowReport.Error

/-!
# File trees

The files and directories below a root. A place in the tree is an address, the names from the
root down to it. A path is followed from a start through directories only: a name leads down, a
double dot leads up, and the root is above itself. The last name of a path may lead to nothing,
which is where a new file or directory can be put. Names and paths have
a limited number of bytes, and longer ones cannot even be looked up.
-/

namespace FlowReport

/-- What a place in a tree holds. -/
inductive Node where
  | directory
  | file (content : Bytes)
  deriving DecidableEq, Repr

/-- The names from the root down to a place. -/
abbrev Address := List Text

/-- The places in use, each once. The root is a directory and needs no entry. -/
structure FileTree where
  entries : List (Address × Node) := []
  deriving DecidableEq, Repr

namespace FileTree

/-- The first entry of an address. -/
def find? (a : Address) : List (Address × Node) → Option Node
  | [] => none
  | (b, node) :: rest => if b = a then some node else find? a rest

/-- The entries with `node` at the address `a`. -/
def replace (a : Address) (node : Node) : List (Address × Node) → List (Address × Node)
  | [] => [(a, node)]
  | (b, old) :: rest => if b = a then (b, node) :: rest else (b, old) :: replace a node rest

/-- What a place holds. -/
def get? (t : FileTree) (a : Address) : Option Node :=
  if a = [] then some .directory else find? a t.entries

/-- The tree with `node` at an address. -/
def put (t : FileTree) (a : Address) (node : Node) : FileTree := ⟨replace a node t.entries⟩

/-- The tree without a place and all that is below it. -/
def remove (t : FileTree) (a : Address) : FileTree :=
  ⟨t.entries.filter fun e => !a.isPrefixOf e.1⟩

theorem find?_replace (a b : Address) (node : Node) (entries : List (Address × Node)) :
    find? b (replace a node entries) = if b = a then some node else find? b entries := by
  fun_induction replace a node entries <;> grind [find?]

theorem get?_put (t : FileTree) (a b : Address) (node : Node) (h : b ≠ []) :
    (t.put a node).get? b = if b = a then some node else t.get? b := by
  simp [get?, put, find?_replace, h]

theorem find?_filter (p : Address → Bool) (a : Address) (entries : List (Address × Node)) :
    find? a (entries.filter fun e => p e.1) = if p a then find? a entries else none := by
  induction entries with
  | nil => simp [find?]
  | cons e rest ih => grind [find?]

theorem get?_remove (t : FileTree) (a b : Address) (h : b ≠ []) :
    (t.remove a).get? b = if a.isPrefixOf b then none else t.get? b := by
  have := find?_filter (fun c => !a.isPrefixOf c) b t.entries
  simp only [get?, remove, h, if_false, this]
  cases a.isPrefixOf b <;> simp

/-- The most bytes of a name. -/
def nameLimit : Nat := 255

/-- The most bytes of a path. -/
def pathLimit : Nat := 4095

/-- The name has too many bytes. -/
def isTooLong (name : Text) : Bool := nameLimit < (Utf8.encode name).length

/-- The place that names lead to from an address. Every place that is left has to be a
directory, and every name short enough. -/
def walk (t : FileTree) (here : Address) : List Text → Except FileFault Address
  | [] => .ok here
  | name :: names =>
    match t.get? here with
    | none => .error .missing
    | some (.file _) => .error .notADirectory
    | some .directory =>
      if isTooLong name then .error .nameTooLong
      else walk t (if name = "..".toList then here.dropLast else here ++ [name]) names

/-- The place that a path leads to; a relative path starts at `start`. -/
def resolve (t : FileTree) (start : Address) (p : Path) : Except FileFault Address :=
  if pathLimit < (Utf8.encode p.text).length then .error .nameTooLong
  else t.walk (if p.root = .relative then start else []) p.names

/-- What the place of a path holds: nothing if the path leads nowhere. Only a name or a path
that is too long is a fault. -/
def look (t : FileTree) (start : Address) (p : Path) : Except FileFault (Option Node) :=
  match t.resolve start p with
  | .ok a => .ok (t.get? a)
  | .error .nameTooLong => .error .nameTooLong
  | .error _ => .ok none

/-- The path leads to a directory. -/
def isDirectory (t : FileTree) (start : Address) (p : Path) : Bool :=
  match t.look start p with
  | .ok (some .directory) => true
  | _ => false

/-- The content of a file. -/
def read (t : FileTree) (start : Address) (p : Path) : Except FileFault Bytes := do
  match t.get? (← t.resolve start p) with
  | none => .error .missing
  | some .directory => .error .isADirectory
  | some (.file content) => .ok content

/-- The tree with a file, new or replaced. -/
def write (t : FileTree) (start : Address) (p : Path) (content : Bytes) :
    Except FileFault FileTree := do
  let a ← t.resolve start p
  if t.get? a = some .directory then .error .isADirectory
  else .ok (t.put a (.file content))

/-- The tree with a new directory. -/
def makeDirectory (t : FileTree) (start : Address) (p : Path) : Except FileFault FileTree := do
  let a ← t.resolve start p
  match t.get? a with
  | some _ => .error .present
  | none => .ok (t.put a .directory)

/-- A tree after directories were to be made, with the fault that stopped it and its path. What
was made before stays. -/
abbrev Provided := FileTree × Option (FileFault × Path)

/-- Makes a directory unless it is there. -/
def provideDirectory (t : FileTree) (start : Address) (p : Path) : Provided :=
  match t.makeDirectory start p with
  | .ok t => (t, none)
  | .error fault => (t, if t.isDirectory start p then none else some (fault, p))

/-- Makes the directory that the names, the last one first, lead to, and those above it. -/
def provideFrom (t : FileTree) (start : Address) (root : Root) : List Text → Provided
  | [] => t.provideDirectory start ⟨root, []⟩
  | name :: above =>
    let p : Path := ⟨root, (name :: above).reverse⟩
    match t.makeDirectory start p with
    | .error .missing =>
      match provideFrom t start root above with
      | (t, none) => t.provideDirectory start p
      | stopped => stopped
    | _ => t.provideDirectory start p

/-- Makes a directory and those above it, as far as they are not there. -/
def provideDirectories (t : FileTree) (start : Address) (p : Path) : Provided :=
  t.provideFrom start p.root p.names.reverse

/-- The files at and below an address, each under the rest of its address. -/
def filesBelow (t : FileTree) (a : Address) : List (Address × Bytes) :=
  t.entries.filterMap fun (b, node) =>
    match node with
    | .file content => if a.isPrefixOf b then some (b.drop a.length, content) else none
    | .directory => none

end FileTree

end FlowReport
