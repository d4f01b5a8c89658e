/-
  Scriptlet.Files

  The files that a command finds: where paths lead, and why they lead nowhere.
-/
import Scriptlet.Text.Bytes

namespace Scriptlet

/-! ## Failures -/

/-- Why a path cannot be opened or read. -/
inductive FileProblem where
  | missing
  | notDirectory
  | isDirectory
  | nameTooLong
  | zeroByte
deriving DecidableEq, Repr

def FileProblem.message : FileProblem → Bytes
  | .missing => text "no such file or directory"
  | .notDirectory => text "not a directory"
  | .isDirectory => text "is a directory"
  | .nameTooLong => text "file name too long"
  | .zeroByte => text "invalid argument"

/-- What failed on a file. -/
inductive FileOperation where
  | opening
  | reading
deriving DecidableEq, Repr

def FileOperation.name : FileOperation → Bytes
  | .opening => text "open"
  | .reading => text "read"

/-- An operation on a file that failed. -/
structure FileFault where
  operation : FileOperation
  path : Bytes
  problem : FileProblem
deriving DecidableEq, Repr

def FileFault.message (f : FileFault) : Bytes :=
  f.operation.name ++ text " " ++ f.path ++ text ": " ++ f.problem.message

/-! ## Places -/

/-- A place in the tree of files, by the names that lead there from the root or
    from the working directory. Only the first of the latter may lead up. -/
structure Place where
  absolute : Bool
  names : List Bytes
deriving DecidableEq, Repr

namespace Place

/-- Where a path starts. -/
def start (path : Bytes) : Place := ⟨path.head? == some 47, []⟩

/-- The place above; above the root there is the root. -/
def parent (p : Place) : Place :=
  match p.names.getLast? with
  -- From the working directory there is a way up, which has no other name.
  | none => if p.absolute then p else ⟨false, [text ".."]⟩
  | some name =>
    { p with names := if name == text ".." then p.names ++ [name] else p.names.dropLast }

/-- The place that one name of a path leads to. -/
def next (p : Place) (name : Bytes) : Place :=
  if name.isEmpty || name == text "." then p
  else if name == text ".." then p.parent
  else { p with names := p.names ++ [name] }

/-- The place that a path names, whether or not anything is there. -/
def ofPath (path : Bytes) : Place := (Bytes.split 47 path).foldl next (start path)

/-- Whether there is nothing but a way up, to a directory that exists always. -/
def isAbove (p : Place) : Bool := p.names.all (· == text "..")

/-- Whether a place is on the way to another. -/
def leadsTo (p q : Place) : Bool := p.absolute == q.absolute && p.names.isPrefixOf q.names

end Place

/-! ## Files -/

/-- Files by their paths, and directories that exist whether or not they hold
    one of these files. -/
structure Files where
  contents : List (Bytes × Bytes)
  directories : List Bytes

namespace Files

/-- How long a name may be. -/
def longestName : Nat := 255

/-- How long a path may be. -/
def longestPath : Nat := 4095

/-- The content of the file at a place. -/
def contentAt? (fs : Files) (p : Place) : Option Bytes :=
  (fs.contents.map fun f => (Place.ofPath f.1, f.2)).lookup p

/-- Whether there is a directory at a place: one that is always there, one that
    is known, or one on the way to a file. -/
def hasDirectory (fs : Files) (p : Place) : Bool :=
  p.isAbove ||
    (fs.contents.map Prod.fst ++ fs.directories).any fun path =>
      p.leadsTo (Place.ofPath path) && (fs.contentAt? p).isNone

/-- Goes on to the place that a name leads to, which may not exist. -/
def step (fs : Files) (p : Place) (name : Bytes) : Except FileProblem Place :=
  if (fs.contentAt? p).isSome then .error .notDirectory
  else if !fs.hasDirectory p then .error .missing
  else if longestName < name.length then .error .nameTooLong
  else .ok (p.next name)

/-- The place that a path leads to, all directories on the way being there. -/
def resolve (fs : Files) (path : Bytes) : Except FileProblem Place :=
  if path.contains 0 then .error .zeroByte
  else if longestPath < path.length then .error .nameTooLong
  else (Bytes.split 47 path).foldlM fs.step (Place.start path)

/-- The content of a file. -/
def read (fs : Files) (path : Bytes) : Except FileFault Bytes :=
  match fs.resolve path with
  | .error problem => .error ⟨.opening, path, problem⟩
  | .ok p =>
    match fs.contentAt? p with
    | some content => .ok content
    | none =>
      if fs.hasDirectory p then .error ⟨.reading, path, .isDirectory⟩
      else .error ⟨.opening, path, .missing⟩

/-- Why a file can neither be opened nor created, if that is so. -/
def creationFault? (fs : Files) (path : Bytes) : Option FileFault :=
  match fs.resolve path with
  | .error problem => some ⟨.opening, path, problem⟩
  | .ok p => if fs.hasDirectory p then some ⟨.opening, path, .isDirectory⟩ else none

end Files

end Scriptlet
