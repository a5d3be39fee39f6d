import FlowReport.Text.Basic

/-!
# Paths

A path is a root and the names below it. Reading one drops empty names and names that are a
single dot, and keeps a double dot; writing it puts a slash between the names. A path has no
root, one slash, or the two slashes that POSIX leaves to the system; three or more are one.
-/

namespace FlowReport

/-- Where a path starts. -/
inductive Root where
  | relative
  | slash
  | doubleSlash
  deriving DecidableEq, Repr

/-- A path in its normal form. -/
structure Path where
  root : Root
  names : List Text
  deriving DecidableEq, Repr

namespace Path

/-- The root of a written path. -/
def rootOf (s : Text) : Root :=
  match (s.takeWhile (· = '/')).length with
  | 0 => .relative
  | 2 => .doubleSlash
  | _ => .slash

/-- The path that a text writes. -/
def ofText (s : Text) : Path :=
  ⟨rootOf s, (Text.split '/' s).filter fun name => name ≠ [] ∧ name ≠ ['.']⟩

/-- The slashes of a root. -/
def Root.text : Root → Text
  | .relative => []
  | .slash => ['/']
  | .doubleSlash => ['/', '/']

/-- The path as a text; the empty relative path is a dot. -/
def text (p : Path) : Text :=
  match Root.text p.root ++ Text.join ['/'] p.names with
  | [] => ['.']
  | s => s

/-- The path `q` seen from `p`: a rooted path stands for itself. -/
def append (p q : Path) : Path :=
  if q.root = .relative then ⟨p.root, p.names ++ q.names⟩ else q

instance : Append Path := ⟨append⟩

/-- The path below `p` that `s` writes. -/
def child (p : Path) (s : Text) : Path := p ++ ofText s

/-- The last name, empty for a root and for the empty path. -/
def name (p : Path) : Text := p.names.getLast?.getD []

/-- The path without its last name. -/
def parent (p : Path) : Path := ⟨p.root, p.names.dropLast⟩

/-- A name cut before its last dot, unless that dot is its first or its last character. -/
def splitName (name : Text) : Text × Text :=
  let ending := name.reverse.takeWhile (· ≠ '.')
  let front := (name.reverse.dropWhile (· ≠ '.')).drop 1
  if front = [] ∨ ending = [] then (name, []) else (front.reverse, '.' :: ending.reverse)

/-- The ending of the last name, with its dot. -/
def suffix (p : Path) : Text := (splitName p.name).2

/-- The last name without its ending. -/
def stem (p : Path) : Text := (splitName p.name).1

/-- The path with another ending; a path without a last name stays as it is. -/
def withSuffix (p : Path) (ending : Text) : Path :=
  if p.names = [] then p else ⟨p.root, p.names.dropLast ++ [p.stem ++ ending]⟩

end Path

end FlowReport
